import Mathlib.Data.List.Chain
import MiniAlgol.Proofs.Source.Lexing
import MiniAlgol.Source.Program

/-!
# Reading a text token by token

`Reads p ts q` says that the parser goes from `p` to `q` over the tokens `ts`, each of a terminal
that is accepted where it stands. A text that is read to its end was read so, and has only blanks
and comments beside the texts of the tokens (`exists_reads`). Tokens that can be read so are read
from every text in which each of them is ended by what follows it (`readTokens_parted`). That is
the case where a blank stands between each two tokens (`parted_spaced`), and where blanks stand
anywhere or nowhere between tokens that may be next to each other (`Laid.parted`).
-/

namespace MiniAlgol.Source

/-- The parser takes the tokens one after the other. -/
inductive Reads : Parser → List Token → Parser → Prop where
  | nil {p : Parser} : Reads p [] p
  | cons {p q r : Parser} {t : Token} {ts : List Token} (haccepts : p.focus.accepts t.terminal)
      (hfeed : p.feed t = some q) (hrest : Reads q ts r) : Reads p (t :: ts) r

variable {p q r : Parser} {t : Token} {ts us : List Token}

theorem Reads.single (haccepts : p.focus.accepts t.terminal) (hfeed : p.feed t = some q) :
    Reads p [t] q :=
  .cons haccepts hfeed .nil

theorem Reads.append (hts : Reads p ts q) (hus : Reads q us r) : Reads p (ts ++ us) r := by
  induction hts with
  | nil => exact hus
  | cons haccepts hfeed _ ih => exact .cons haccepts hfeed (ih hus)

/-! ## From a text to tokens -/

/-- The text is that of the tokens in turn, with blanks and comments before, between and after
them. -/
inductive Spread : List Char → List Token → Prop where
  | nil {cs : List Char} (hcs : Token.Ending cs) : Spread cs []
  | cons {gap rest : List Char} {t : Token} {ts : List Token} (hgap : Token.Gap gap)
      (hrest : Spread rest ts) : Spread (gap ++ (t.text ++ rest)) (t :: ts)

/-- A text that is read to its end is made of tokens that the parser takes. -/
theorem exists_reads {last last' : Option (List Char)} {cs : List Char}
    (h : readTokens p last cs = .done q last') :
    ∃ ts, Reads p ts q ∧ (∀ t ∈ ts, t.Fits) ∧ Spread cs ts := by
  fun_induction readTokens p last cs with
  | case1 p last cs hskip =>
    cases h
    obtain ⟨gap, hcs, hgap⟩ := Token.exists_gap cs
    rw [hskip, List.append_nil] at hcs
    subst hcs
    exact ⟨[], .nil, by simp, .nil (hgap.elim .gap (·.2))⟩
  | case2 p last cs c rest hskip token hfront next hfeed ih =>
    obtain ⟨ts, hreads, hfits, hspread⟩ := ih h
    obtain ⟨haccepts, hfit⟩ := Token.front_fits hfront
    obtain ⟨gap, hcs, hgap⟩ := Token.exists_gap cs
    -- the token stands right after the gap
    rw [hskip, ← Token.text_append_after hfront] at hcs
    have hgap : Token.Gap gap := hgap.resolve_right fun hend => by
      rw [hskip] at hend
      cases hend.1
    refine ⟨token :: ts, .cons haccepts hfeed hreads, List.forall_mem_cons.2 ⟨hfit, hfits⟩, ?_⟩
    rw [hcs]
    exact .cons hgap hspread
  | case3 | case4 | case5 => cases h

/-! ## From tokens to a text -/

/-- The text is that of the tokens in turn, each ended by what follows it, with blanks before,
between and after them. -/
inductive Parted : List Char → List Token → Prop where
  | nil {cs : List Char} (hcs : ∀ c ∈ cs, Token.isSpace c) : Parted cs []
  | cons {gap rest : List Char} {t : Token} {ts : List Token} (hgap : ∀ c ∈ gap, Token.isSpace c)
      (hends : t.terminal.EndsBefore rest) (hrest : Parted rest ts) :
      Parted (gap ++ (t.text ++ rest)) (t :: ts)

/-- Nowhere is one accepted reserved word the start of another. -/
theorem accepts_do {focus : Focus} (hdo : focus.accepts (.keyword .do)) :
    focus.accepts (.keyword .double) = false := by
  cases focus <;> first | rfl | cases hdo

theorem readTokens_done {last : Option (List Char)} {cs : List Char} (hskip : Token.skip cs = []) :
    readTokens p last cs = .done p last := by
  rw [readTokens]
  split
  · rfl
  · next hcons => rw [hskip] at hcons; cases hcons

theorem readTokens_next {last : Option (List Char)} {cs rest : List Char}
    (hfits : t.Fits) (hskip : Token.skip cs = t.text ++ rest)
    (hfront : Token.front p.focus.accepts (t.text ++ rest) = some t) (hfeed : p.feed t = some q) :
    readTokens p last cs = readTokens q (some (t.text ++ rest)) rest := by
  obtain ⟨c, more, htext⟩ := List.exists_cons_of_ne_nil (Terminal.takes_ne_nil hfits)
  have hafter : t.after (t.text ++ rest) = rest := List.drop_left
  rw [htext, List.cons_append] at hskip hfront hafter ⊢
  rw [readTokens]
  split
  · next hnil => rw [hskip] at hnil; cases hnil
  · next d others hcons =>
    rw [hskip] at hcons
    cases hcons
    split
    · next token htoken =>
      rw [hfront] at htoken
      cases htoken
      rw [hfeed, hafter]
    · next hnone => rw [hfront] at hnone; cases hnone

/-- Tokens that the parser takes are read from their text, when each is ended by what follows it
and no name among them is a reserved word. -/
theorem readTokens_parted {cs : List Char} (hreads : Reads p ts q) (hfits : ∀ t ∈ ts, t.Fits)
    (hplain : ∀ t ∈ ts, t.Plain) (hparted : Parted cs ts) (last : Option (List Char)) :
    ∃ last', readTokens p last cs = .done q last' := by
  induction hreads generalizing last cs with
  | nil =>
    obtain ⟨hcs⟩ := hparted
    have hskip := Token.skip_blanks hcs []
    rw [List.append_nil] at hskip
    exact ⟨last, readTokens_done hskip⟩
  | @cons p q r t ts haccepts hfeed _ ih =>
    rw [List.forall_mem_cons] at hfits hplain
    cases hparted with
    | @cons gap rest _ _ hgap hends hrest =>
      have hskip := Token.skip_blanks hgap (t.text ++ rest)
      rw [Token.skip_append hfits.1 hends] at hskip
      have hdo : p.focus.accepts (.keyword .do) → p.focus.accepts (.keyword .double) →
          p.focus.accepts .ident := by
        intro hdo hdouble
        rw [accepts_do hdo] at hdouble
        cases hdouble
      have hfront := Token.front_eq hfits.1 hplain.1 haccepts hdo hends
      rw [readTokens_next hfits.1 hskip hfront hfeed]
      exact ih hfits.2 hplain.2 hrest _

/-! ## Ways to set tokens -/

/-- The tokens with a blank between each two. -/
def spaced (ts : List Token) : List Char :=
  List.intercalate [' '] (ts.map Token.text)

theorem Parted.blank {c : Char} {cs : List Char} (hparted : Parted cs ts)
    (hc : Token.isSpace c) : Parted (c :: cs) ts := by
  cases hparted with
  | nil hcs => exact .nil (List.forall_mem_cons.2 ⟨hc, hcs⟩)
  | cons hgap hends hrest => exact .cons (List.forall_mem_cons.2 ⟨hc, hgap⟩) hends hrest

theorem parted_spaced (ts : List Token) : Parted (spaced ts) ts := by
  induction ts with
  | nil => exact .nil (List.forall_mem_nil _)
  | cons t ts ih =>
    cases ts with
    | nil =>
      have hends : t.terminal.EndsBefore [] := fun c hc => nomatch hc
      have hparted : Parted ([] ++ (t.text ++ [])) [t] := .cons (List.forall_mem_nil _) hends ih
      simpa [spaced] using hparted
    | cons u ts =>
      have hends : t.terminal.EndsBefore (' ' :: spaced (u :: ts)) := by
        intro c hc
        cases hc
        exact t.terminal.endedBy_of_isSpace rfl
      have hparted : Parted ([] ++ (t.text ++ ' ' :: spaced (u :: ts))) (t :: u :: ts) :=
        .cons (List.forall_mem_nil _) hends (ih.blank rfl)
      simpa [spaced, List.intercalate] using hparted

/-- The text is that of the tokens in turn, with blanks or nothing before, between and after
them. -/
inductive Laid : List Char → List Token → Prop where
  | nil {cs : List Char} (hcs : ∀ c ∈ cs, Token.isSpace c) : Laid cs []
  | cons {gap rest : List Char} {t : Token} {ts : List Token} (hgap : ∀ c ∈ gap, Token.isSpace c)
      (hrest : Laid rest ts) : Laid (gap ++ (t.text ++ rest)) (t :: ts)

/-- The texts of the tokens right after each other. -/
theorem laid_flatMap (ts : List Token) : Laid (ts.flatMap Token.text) ts := by
  induction ts with
  | nil => exact .nil (List.forall_mem_nil _)
  | cons t ts ih => exact .cons (List.forall_mem_nil _) ih

/-- A text of the one terminal ends where a text of the other starts. -/
def Borders (t u : Token) : Prop :=
  ∀ c, u.terminal.opens c → t.terminal.endedBy c

/-- Tokens that border on each other need no blanks between them. -/
theorem Laid.parted {cs : List Char} (hlaid : Laid cs ts) (hfits : ∀ t ∈ ts, t.Fits)
    (hborders : ts.IsChain Borders) : Parted cs ts := by
  induction hlaid with
  | nil hcs => exact .nil hcs
  | @cons gap rest t ts hgap hrest ih =>
    rw [List.forall_mem_cons] at hfits
    rw [List.isChain_cons] at hborders
    refine .cons hgap (fun c hc => ?_) (ih hfits.2 hborders.2)
    -- what comes next is a blank, the next token or nothing
    cases hrest with
    | nil hcs => exact t.terminal.endedBy_of_isSpace (hcs c (List.mem_of_head? hc))
    | @cons gap after u ts hgap _ =>
      cases gap with
      | cons d gap =>
        cases hc
        exact t.terminal.endedBy_of_isSpace (hgap _ List.mem_cons_self)
      | nil =>
        have hu := (List.forall_mem_cons.1 hfits.2).1
        obtain ⟨d, more, htext⟩ := List.exists_cons_of_ne_nil (Terminal.takes_ne_nil hu)
        rw [List.nil_append, htext] at hc
        cases hc
        refine hborders.1 u rfl _ ?_
        rw [Token.Fits, htext] at hu
        exact Terminal.opens_of_takes hu

end MiniAlgol.Source
