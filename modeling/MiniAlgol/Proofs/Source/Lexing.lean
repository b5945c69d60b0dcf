import MiniAlgol.Source.Token
import Mathlib.Data.List.TakeWhile

/-!
# Words and signs

Every terminal has a pattern (`Terminal.Takes`). What is cut off the front of a text matches the
pattern of its terminal (`Token.front_fits`), and a token that what follows does not go on with
(`Terminal.EndsBefore`) is cut off whole wherever its terminal is accepted (`Token.front_eq`).
-/

namespace MiniAlgol

/-! ## Patterns -/

namespace Terminal

/-- The text of a terminal that has no other. -/
def spelling : Terminal → List Char
  | becomes => [':', '=']
  | equal => ['=']
  | semicolon => [';']
  | comma => [',']
  | colon => [':']
  | leftSquare => ['[']
  | rightSquare => [']']
  | leftParen => ['(']
  | rightParen => [')']
  | keyword k => k.text.toList
  | _ => []

/-- At least one decimal digit, and nothing else. -/
def IsDigits (cs : List Char) : Prop :=
  cs ≠ [] ∧ ∀ c ∈ cs, Text.isDecimalDigit c

/-- A letter or an underscore, and then letters, digits and underscores. -/
def IsName (cs : List Char) : Prop :=
  ∃ c rest, cs = c :: rest ∧ isNameStart c ∧ ∀ d ∈ rest, isNameChar d

/-- Whether a text has the pattern of the terminal. -/
def Takes : Terminal → List Char → Prop
  | ident, cs => IsName cs
  | compareOp, cs => cs ∈ comparisons
  | addOp, cs => cs ∈ [['+'], ['-']]
  | mulOp, cs => cs ∈ [['*'], ['/']]
  | realLit, cs =>
    ∃ whole fraction, cs = whole ++ '.' :: fraction ∧ IsDigits whole ∧ IsDigits fraction
  | intLit, cs => IsDigits cs
  | stringLit, cs => ∃ inner, cs = '"' :: (inner ++ ['"']) ∧ '"' ∉ inner
  | t, cs => cs = t.spelling

/-- Whether a text of the terminal can start with the character. -/
def opens : Terminal → Char → Bool
  | ident, c => isNameStart c
  | compareOp, c => c == '<' || c == '>' || c == '=' || c == '!'
  | addOp, c => c == '+' || c == '-'
  | mulOp, c => c == '*' || c == '/'
  | realLit, c | intLit, c => Text.isDecimalDigit c
  | stringLit, c => c == '"'
  | t, c => t.spelling.head? == some c

/-- Whether a text of the terminal ends where the character comes next. Elsewhere the character
may go on with the text, or make it the start of another terminal or of a comment. -/
def endedBy : Terminal → Char → Bool
  | ident, c | keyword _, c => !isNameChar c
  | compareOp, c | equal, c | colon, c => c != '='
  | mulOp, c => c != '/'
  | realLit, c => !Text.isDecimalDigit c
  | intLit, c => !Text.isDecimalDigit c && c != '.'
  | _, _ => true

/-- What follows a text of the terminal is nothing, or starts with a character that ends it. -/
def EndsBefore (t : Terminal) (rest : List Char) : Prop :=
  ∀ c ∈ rest.head?, t.endedBy c

end Terminal

/-- The text of the token has the pattern of its terminal. -/
def Token.Fits (t : Token) : Prop :=
  t.terminal.Takes t.text

namespace Terminal

variable {cs rest text : List Char} {c : Char} {n : Nat}

/-- A blank ends every text. -/
theorem endedBy_of_isSpace (t : Terminal) (hc : Token.isSpace c) : t.endedBy c := by
  simp only [Token.isSpace, Bool.or_eq_true, beq_iff_eq] at hc
  rcases hc with (((rfl | rfl) | rfl) | rfl) | rfl <;> cases t <;> rfl

theorem EndsBefore.head_ne {t : Terminal} {more : List Char} {d : Char}
    (hrest : t.EndsBefore (c :: more)) (hd : t.endedBy d = false) : c ≠ d := by
  rintro rfl
  rw [hrest c rfl] at hd
  cases hd

theorem EndsBefore.takeWhile_eq {t : Terminal} {p : Char → Bool} (hrest : t.EndsBefore rest)
    (hp : ∀ c, t.endedBy c → p c = false) : rest.takeWhile p = [] := by
  cases rest with
  | nil => rfl
  | cons c more =>
    rw [List.takeWhile_cons, hp c (hrest c rfl)]
    rfl

/-! ## What is taken has the pattern -/

theorem take_length_takeWhile (p : Char → Bool) (cs : List Char) :
    cs.take (cs.takeWhile p).length = cs.takeWhile p := by
  have hsplit := List.takeWhile_append_dropWhile (p := p) (l := cs)
  have htake : (cs.takeWhile p ++ cs.dropWhile p).take (cs.takeWhile p).length
      = cs.takeWhile p := List.take_left
  rwa [hsplit] at htake

theorem digitsWidth_eq (h : digitsWidth cs = some n) :
    n = (cs.takeWhile Text.isDecimalDigit).length ∧ n ≠ 0 := by
  unfold digitsWidth at h
  split at h
  · cases h
  · next hne =>
    cases h
    exact ⟨rfl, hne⟩

theorem isDigits_take (h : digitsWidth cs = some n) : IsDigits (cs.take n) := by
  obtain ⟨rfl, hne⟩ := digitsWidth_eq h
  rw [take_length_takeWhile]
  refine ⟨fun hnil => hne ?_, fun c hc => List.mem_takeWhile_imp hc⟩
  rw [hnil]
  rfl

theorem isName_take (h : nameWidth cs = some n) : IsName (cs.take n) := by
  cases cs with
  | nil => cases h
  | cons c cs =>
    rw [nameWidth] at h
    split at h
    · next hc =>
      cases h
      rw [List.take_succ_cons, take_length_takeWhile]
      exact ⟨c, _, rfl, hc, fun d hd => List.mem_takeWhile_imp hd⟩
    · cases h

theorem take_of_fixedWidth (h : fixedWidth text cs = some n) : cs.take n = text := by
  unfold fixedWidth at h
  split at h
  · next hp =>
    cases h
    obtain ⟨more, rfl⟩ := List.isPrefixOf_iff_prefix.1 hp
    rw [List.take_left]
  · cases h

theorem take_of_firstFixedWidth {texts : List (List Char)} (h : firstFixedWidth texts cs = some n) :
    cs.take n ∈ texts := by
  obtain ⟨text, hmem, hit⟩ := List.exists_of_findSome?_eq_some h
  rwa [take_of_fixedWidth hit]

theorem take_past (before after : List Char) (c : Char) (k : Nat) :
    (before ++ c :: after).take (before.length + 1 + k) = before ++ c :: after.take k := by
  rw [Nat.add_assoc, List.take_length_add_append, Nat.add_comm, List.take_succ_cons]

theorem takes_real (h : realWidth cs = some n) : realLit.Takes (cs.take n) := by
  unfold realWidth at h
  split at h
  · cases h
  · next whole hwhole =>
    split at h
    · next rest hrest =>
      obtain ⟨fraction, hfraction, rfl⟩ := Option.map_eq_some_iff.1 h
      have hsplit := List.take_append_drop whole cs
      rw [hrest] at hsplit
      have hlength : (cs.take whole).length = whole := by
        rw [List.length_take, (digitsWidth_eq hwhole).1]
        exact Nat.min_eq_left (List.takeWhile_sublist _).length_le
      -- the point is the one character between the two runs of digits
      have htake := take_past (cs.take whole) rest '.' fraction
      rw [hsplit, hlength] at htake
      exact ⟨_, _, htake, isDigits_take hwhole, isDigits_take hfraction⟩
    · cases h

theorem takes_string (h : stringWidth cs = some n) : stringLit.Takes (cs.take n) := by
  unfold stringWidth at h
  split at h
  · next cs =>
    simp only at h
    split at h
    · next hlt =>
      cases h
      have hsplit := List.takeWhile_append_dropWhile (p := (· != '"')) (l := cs)
      have hstop := List.head?_dropWhile_not (· != '"') cs
      cases hdrop : cs.dropWhile (· != '"') with
      | nil =>
        -- the run stops short of the end, so something stops it
        rw [hdrop, List.append_nil] at hsplit
        rw [hsplit] at hlt
        exact absurd hlt (Nat.lt_irrefl _)
      | cons d more =>
        rw [hdrop] at hsplit hstop
        have hd : d = '"' := by simpa using hstop
        subst hd
        have htake := take_past (cs.takeWhile (· != '"')) more '"' 0
        rw [hsplit, List.take_zero] at htake
        refine ⟨cs.takeWhile (· != '"'), ?_, fun hmem => ?_⟩
        · rw [List.take_succ_cons]
          exact congrArg _ htake
        · have := List.mem_takeWhile_imp hmem
          simp at this
    · cases h
  · cases h

theorem takes_of_width {t : Terminal} (h : t.width cs = some n) : t.Takes (cs.take n) := by
  cases t with
  | ident => exact isName_take h
  | compareOp => exact take_of_firstFixedWidth h
  | addOp => exact take_of_firstFixedWidth h
  | mulOp => exact take_of_firstFixedWidth h
  | realLit => exact takes_real h
  | intLit => exact isDigits_take h
  | stringLit => exact takes_string h
  | _ => exact take_of_fixedWidth h

/-! ## What a text can start with -/

theorem opens_of_takes {t : Terminal} (h : t.Takes (c :: cs)) : t.opens c := by
  cases t with
  | ident =>
    obtain ⟨d, rest, heq, hd, -⟩ := h
    cases heq
    exact hd
  | compareOp | addOp | mulOp =>
    simp only [Takes, comparisons, List.mem_cons, List.cons.injEq, List.not_mem_nil, or_false] at h
    grind [opens]
  | realLit =>
    obtain ⟨whole, fraction, heq, ⟨hne, hwhole⟩, -⟩ := h
    obtain ⟨d, more, rfl⟩ := List.exists_cons_of_ne_nil hne
    cases heq
    exact hwhole _ List.mem_cons_self
  | intLit => exact h.2 c List.mem_cons_self
  | stringLit =>
    obtain ⟨inner, heq, -⟩ := h
    cases heq
    rfl
  | _ =>
    have hspelling : c :: cs = spelling _ := h
    show ((spelling _).head? == some c) = true
    rw [← hspelling]
    simp

theorem takes_ne_nil {t : Terminal} (h : t.Takes text) : text ≠ [] := by
  rintro rfl
  cases t with
  | ident =>
    obtain ⟨c, rest, heq, -⟩ := h
    cases heq
  | compareOp => exact absurd h (by decide : ([] : List Char) ∉ comparisons)
  | addOp | mulOp => simp [Takes] at h
  | realLit =>
    obtain ⟨whole, fraction, heq, -⟩ := h
    simp at heq
  | intLit => exact h.1 rfl
  | stringLit =>
    obtain ⟨inner, heq, -⟩ := h
    cases heq
  | keyword k => cases k <;> exact absurd h (by decide : [] ≠ spelling _)
  | _ => exact absurd h (by decide : [] ≠ spelling _)

theorem width_eq_none {t : Terminal} (h : t.opens c = false) : t.width (c :: cs) = none := by
  cases hw : t.width (c :: cs) with
  | none => rfl
  | some n =>
    have hpos := width_pos hw
    have htakes := takes_of_width hw
    obtain ⟨k, rfl⟩ := Nat.exists_eq_succ_of_ne_zero (Nat.ne_of_gt hpos)
    rw [List.take_succ_cons] at htakes
    rw [opens_of_takes htakes] at h
    cases h

/-- No token starts with a blank. -/
theorem isSpace_eq_false {t : Terminal} (h : t.opens c) : Token.isSpace c = false := by
  by_contra hc
  simp only [Bool.not_eq_false, Token.isSpace, Bool.or_eq_true, beq_iff_eq] at hc
  rcases hc with (((rfl | rfl) | rfl) | rfl) | rfl <;>
    cases t with
    | keyword k => cases k <;> revert h <;> decide
    | _ => revert h; decide

theorem not_isDecimalDigit_of_isNameStart (h : isNameStart c) : Text.isDecimalDigit c = false := by
  simp only [isNameStart, Bool.or_eq_true, beq_iff_eq] at h
  rcases h with h | rfl
  · -- letters lie between the digits and the end of the first 128 characters
    have hrange : 0x3a ≤ c.toNat ∧ c.toNat < 0x80 := by
      rcases Bool.or_eq_true_iff.1 h with h | h
      · have hletter : 65 ≤ c.toNat ∧ c.toNat ≤ 90 := of_decide_eq_true h
        omega
      · obtain ⟨hfrom, hto⟩ := Bool.and_eq_true_iff.1 h
        have hletter : 97 ≤ c.toNat := of_decide_eq_true hfrom
        have hlast : c.toNat ≤ 122 := of_decide_eq_true hto
        omega
    rw [Text.isDecimalDigit, Text.decimalDigit?, if_pos hrange.2, Text.digitFrom, if_neg (by omega)]
    rfl
  · decide

/-! ## A text that ends before what follows is taken whole -/

theorem digitsWidth_append (htext : IsDigits text)
    (hrest : rest.takeWhile Text.isDecimalDigit = []) :
    digitsWidth (text ++ rest) = some text.length := by
  rw [digitsWidth, List.takeWhile_append_of_pos htext.2, hrest, List.append_nil]
  have hne : text.length ≠ 0 := fun h => htext.1 (List.length_eq_zero_iff.1 h)
  split
  · next h0 => exact absurd h0 hne
  · rfl

theorem digitsWidth_integer (htext : IsDigits text) (hrest : intLit.EndsBefore rest) :
    digitsWidth (text ++ rest) = some text.length := by
  refine digitsWidth_append htext (hrest.takeWhile_eq fun c hc => ?_)
  simpa using (Bool.and_eq_true_iff.1 hc).1

/-- Digits without a point are no real. -/
theorem realWidth_digits (htext : IsDigits text) (hrest : intLit.EndsBefore rest) :
    realWidth (text ++ rest) = none := by
  rw [realWidth, digitsWidth_integer htext hrest]
  simp only [List.drop_left]
  split
  · next more => exact absurd rfl (hrest.head_ne rfl)
  · rfl

theorem realWidth_append {whole fraction : List Char} (hwhole : IsDigits whole)
    (hfraction : IsDigits fraction) (hrest : realLit.EndsBefore rest) :
    realWidth (whole ++ '.' :: fraction ++ rest) = some (whole ++ '.' :: fraction).length := by
  have hpoint : ('.' :: (fraction ++ rest)).takeWhile Text.isDecimalDigit = [] := by
    rw [List.takeWhile_cons, if_neg (by decide)]
  have hend := hrest.takeWhile_eq (p := Text.isDecimalDigit) fun c hc => by
    simpa [endedBy] using hc
  rw [List.append_assoc, List.cons_append, realWidth, digitsWidth_append hwhole hpoint]
  simp only [List.drop_left]
  rw [digitsWidth_append hfraction hend]
  simp only [Option.map_some, List.length_append, List.length_cons, Option.some.injEq]
  omega

theorem fixedWidth_append (text rest : List Char) :
    fixedWidth text (text ++ rest) = some text.length := by
  rw [fixedWidth, if_pos]
  exact List.isPrefixOf_iff_prefix.2 (List.prefix_append text rest)

/-- A fixed text is not made out across a character that it does not have. -/
theorem fixedWidth_across (hrest : ∀ c ∈ rest.head?, c ∉ text)
    (hnot : text.isPrefixOf cs = false) : fixedWidth text (cs ++ rest) = none := by
  rw [fixedWidth, if_neg]
  intro hpre
  obtain ⟨after, hafter⟩ := List.isPrefixOf_iff_prefix.1 hpre
  rcases List.append_eq_append_iff.1 hafter with ⟨more, rfl, -⟩ | ⟨more, rfl, hmore⟩
  · rw [List.isPrefixOf_iff_prefix.2 (List.prefix_append text more)] at hnot
    cases hnot
  · -- the text ends beyond the character, or right before it
    cases more with
    | nil =>
      rw [List.append_nil, List.isPrefixOf_iff_prefix.2 (List.prefix_refl cs)] at hnot
      cases hnot
    | cons d more =>
      refine hrest d ?_ (by simp)
      rw [hmore]
      rfl

/-- A fixed text of two characters is not made out where the second one ends the first. -/
theorem fixedWidth_pair {t : Terminal} (hrest : t.EndsBefore rest) {d : Char}
    (hd : t.endedBy d = false) (c : Char) : fixedWidth [c, d] (c :: rest) = none := by
  cases rest with
  | nil => simp [fixedWidth]
  | cons e more => simp [fixedWidth, (hrest.head_ne hd).symm]

theorem fixedWidth_first (c : Char) {d : Char} {text : List Char} (hcd : c ≠ d) :
    fixedWidth (c :: text) (d :: cs) = none := by
  simp [fixedWidth, hcd]

theorem width_of_takes {t : Terminal} (ht : t.Takes text) (hrest : t.EndsBefore rest) :
    t.width (text ++ rest) = some text.length := by
  cases t with
  | ident =>
    obtain ⟨c, more, rfl, hc, hmore⟩ := ht
    have hend := hrest.takeWhile_eq (p := isNameChar) fun c hc => by simpa [endedBy] using hc
    rw [width, List.cons_append, nameWidth, if_pos hc, List.takeWhile_append_of_pos hmore, hend,
      List.append_nil]
    rfl
  | compareOp =>
    simp only [Takes, comparisons, List.mem_cons, List.not_mem_nil, or_false] at ht
    -- only a sign of one character could go on
    have hpair : ∀ c, fixedWidth [c, '='] (c :: rest) = none := fixedWidth_pair hrest rfl
    rcases ht with rfl | rfl | rfl | rfl | rfl | rfl <;>
      simp [width, firstFixedWidth, comparisons, List.findSome?_cons, hpair, fixedWidth_first] <;>
      rfl
  | addOp | mulOp =>
    simp only [Takes, List.mem_cons, List.not_mem_nil, or_false] at ht
    rcases ht with rfl | rfl <;> rfl
  | realLit =>
    obtain ⟨whole, fraction, rfl, hwhole, hfraction⟩ := ht
    exact realWidth_append hwhole hfraction hrest
  | intLit => exact digitsWidth_integer ht hrest
  | stringLit =>
    obtain ⟨inner, rfl, hinner⟩ := ht
    have htake : (inner ++ '"' :: rest).takeWhile (· != '"') = inner := by
      rw [List.takeWhile_append_of_pos, List.takeWhile_cons, if_neg (by decide), List.append_nil]
      intro c hc
      rw [bne_iff_ne]
      rintro rfl
      exact hinner hc
    rw [width, List.cons_append, List.append_assoc, List.singleton_append, stringWidth]
    simp only [htake]
    rw [if_pos (by simp)]
    simp
  | keyword k =>
    cases ht
    exact fixedWidth_append k.text.toList rest
  | _ =>
    cases ht
    exact fixedWidth_append _ rest

end Terminal

/-! ## Reserved words -/

namespace Keyword

theorem mem_all (k : Keyword) : k ∈ all := by
  cases k <;> decide

theorem ofText?_text (k : Keyword) : ofText? k.text.toList = some k := by
  cases k <;> decide

theorem isName_text (k : Keyword) : Terminal.IsName k.text.toList := by
  cases k <;> exact ⟨_, _, rfl, by decide, List.all_eq_true.1 (by decide)⟩

theorem isNameChar_of_mem {k : Keyword} {c : Char} (hc : c ∈ k.text.toList) :
    Terminal.isNameChar c := by
  have hall : k.text.toList.all Terminal.isNameChar := by cases k <;> decide
  exact List.all_eq_true.1 hall c hc

/-- One reserved word starts with another. -/
theorem eq_of_isPrefixOf {j k : Keyword} (h : j.text.toList.isPrefixOf k.text.toList) :
    j = k ∨ j = .do ∧ k = .double := by
  have hall : ∀ j ∈ all, ∀ k ∈ all, j.text.toList.isPrefixOf k.text.toList →
      j = k ∨ j = .do ∧ k = .double := by
    decide +kernel
  exact hall j j.mem_all k k.mem_all h

end Keyword

theorem Terminal.mem_all (t : Terminal) : t ∈ all := by
  cases t with
  | keyword k => simp [all, k.mem_all]
  | _ => decide

/-! ## Cutting a token off -/

namespace Token

variable {accepts : Terminal → Bool} {c : Char} {cs rest : List Char} {t : Terminal} {n : Nat}

/-- The terminals that are preferred to this one. -/
def preferred (t : Terminal) : List Terminal :=
  Terminal.all.takeWhile (· != t)

/-- A text that the preferred terminals leave is this one's. -/
theorem matchWidth_eq (hpreferred : ∀ u ∈ preferred t, accepts u → u.width cs = none)
    (ht : accepts t) (hwidth : t.width cs = some n) : matchWidth accepts cs = some (t, n) := by
  have hsplit := List.takeWhile_append_dropWhile (p := (· != t)) (l := Terminal.all)
  have hstop := List.head?_dropWhile_not (· != t) Terminal.all
  cases hdrop : Terminal.all.dropWhile (· != t) with
  | nil =>
    have hne := List.dropWhile_eq_nil_iff.1 hdrop t t.mem_all
    simp at hne
  | cons u after =>
    rw [hdrop] at hstop hsplit
    have hu : u = t := by simpa using hstop
    subst hu
    have hnone : (preferred u).findSome?
        (fun u => if accepts u then (u.width cs).map (u, ·) else none) = none := by
      rw [List.findSome?_eq_none_iff]
      intro v hv
      split
      · next hacc => rw [hpreferred v hv hacc, Option.map_none]
      · rfl
    rw [matchWidth, ← hsplit, List.findSome?_append, ← preferred, hnone, List.findSome?_cons,
      if_pos ht, hwidth]
    rfl

/-- The first character tells the text from those of the preferred terminals. -/
theorem matchWidth_of_opens (hpreferred : ∀ u ∈ preferred t, u.opens c = false) (ht : accepts t)
    (hwidth : t.width (c :: cs) = some n) : matchWidth accepts (c :: cs) = some (t, n) :=
  matchWidth_eq (fun u hu _ => Terminal.width_eq_none (hpreferred u hu)) ht hwidth

/-- Digits and quotation marks start no name. -/
theorem preferred_ident (hc : Terminal.isNameStart c) :
    ∀ u ∈ preferred .ident, u.opens c = false := by
  have hpreferred : preferred .ident = [.realLit, .intLit, .stringLit] := rfl
  have hdigit := Terminal.not_isDecimalDigit_of_isNameStart hc
  have hquote : (c == '"') = false := by
    rw [beq_eq_false_iff_ne]
    rintro rfl
    cases hc
  simp [hpreferred, Terminal.opens, hdigit, hquote]

/-- A reserved word is found as the name that it looks like, or as itself. -/
theorem matchWidth_keyword {k : Keyword} (hk : accepts (.keyword k))
    (hdo : accepts (.keyword .do) → accepts (.keyword .double) → accepts .ident)
    (hrest : (Terminal.keyword k).EndsBefore rest) :
    ∃ u, matchWidth accepts (k.text.toList ++ rest) = some (u, k.text.toList.length) ∧
      reserve accepts u k.text.toList = .keyword k := by
  obtain ⟨c, more, htext, hc, -⟩ := k.isName_text
  have hname := Terminal.width_of_takes (t := .ident) k.isName_text hrest
  rw [htext, List.cons_append, ← htext] at hname ⊢
  by_cases hident : accepts .ident
  · refine ⟨.ident, matchWidth_of_opens (preferred_ident hc) hident hname, ?_⟩
    rw [reserve, Keyword.ofText?_text]
    simp only
    rw [if_pos hk]
  · have hwidth := Terminal.fixedWidth_append k.text.toList rest
    rw [htext, List.cons_append, ← htext] at hwidth
    refine ⟨.keyword k, matchWidth_eq (fun u hu hacc => ?_) hk hwidth, rfl⟩
    cases u with
    | keyword j =>
      rw [← List.cons_append, ← htext]
      refine Terminal.fixedWidth_across (fun c hc hmem => ?_) ?_
      · have hnot : (!Terminal.isNameChar c) = true := hrest c hc
        rw [Keyword.isNameChar_of_mem hmem] at hnot
        cases hnot
      by_contra hpre
      rcases Keyword.eq_of_isPrefixOf (eq_true_of_ne_false hpre) with rfl | ⟨rfl, rfl⟩
      · simpa using List.mem_takeWhile_imp hu
      · exact hident (hdo hacc hk)
    | ident => exact absurd hacc hident
    | realLit | intLit =>
      exact Terminal.width_eq_none (Terminal.not_isDecimalDigit_of_isNameStart hc)
    | _ =>
      refine Terminal.width_eq_none ?_
      cases k <;> cases htext <;> rfl

/-- A token is no name, or a name that is no reserved word. -/
def Plain (token : Token) : Prop :=
  token.terminal = .ident → Keyword.ofText? token.text = none

/-- A token that ends before what follows is found. -/
theorem exists_matchWidth {token : Token} (hfits : token.Fits) (hplain : token.Plain)
    (haccepts : accepts token.terminal)
    (hdo : accepts (.keyword .do) → accepts (.keyword .double) → accepts .ident)
    (hrest : token.terminal.EndsBefore rest) :
    ∃ u, matchWidth accepts (token.text ++ rest) = some (u, token.text.length) ∧
      reserve accepts u token.text = token.terminal := by
  obtain ⟨t, text⟩ := token
  have hwidth := Terminal.width_of_takes hfits hrest
  obtain ⟨c, more, rfl⟩ := List.exists_cons_of_ne_nil (Terminal.takes_ne_nil hfits)
  have hopens := Terminal.opens_of_takes hfits
  cases t with
  | keyword k =>
    have htext : c :: more = k.text.toList := hfits
    simp only [htext]
    exact matchWidth_keyword haccepts hdo hrest
  | ident =>
    refine ⟨.ident, matchWidth_of_opens (preferred_ident hopens) haccepts hwidth, ?_⟩
    rw [reserve, hplain rfl]
  | realLit =>
    have hpreferred : preferred .realLit = [] := rfl
    exact ⟨.realLit, matchWidth_eq (by simp [hpreferred]) haccepts hwidth, rfl⟩
  | intLit =>
    refine ⟨.intLit, matchWidth_eq (fun u hu _ => ?_) haccepts hwidth, rfl⟩
    rw [List.mem_singleton.1 hu]
    exact Terminal.realWidth_digits hfits hrest
  | stringLit =>
    have hquote : c = '"' := by simpa [Terminal.opens] using hopens
    subst hquote
    exact ⟨.stringLit, matchWidth_of_opens (by decide) haccepts hwidth, rfl⟩
  | compareOp =>
    have hc : c = '<' ∨ c = '>' ∨ c = '=' ∨ c = '!' := by
      simpa [Terminal.opens, or_assoc] using hopens
    refine ⟨.compareOp, matchWidth_of_opens ?_ haccepts hwidth, rfl⟩
    rcases hc with rfl | rfl | rfl | rfl <;> decide
  | addOp =>
    have hc : c = '+' ∨ c = '-' := by simpa [Terminal.opens] using hopens
    refine ⟨.addOp, matchWidth_of_opens ?_ haccepts hwidth, rfl⟩
    rcases hc with rfl | rfl <;> decide
  | mulOp =>
    have hc : c = '*' ∨ c = '/' := by simpa [Terminal.opens] using hopens
    refine ⟨.mulOp, matchWidth_of_opens ?_ haccepts hwidth, rfl⟩
    rcases hc with rfl | rfl <;> decide
  | equal =>
    -- a comparison may start with the same character, but then goes on
    cases hfits
    have hfirst : ∀ u ∈ preferred .equal, u ≠ .compareOp → u.opens '=' = false := by decide
    refine ⟨.equal, matchWidth_eq (fun u hu _ => ?_) haccepts hwidth, rfl⟩
    by_cases hcompare : u = .compareOp
    · subst hcompare
      have hpair := Terminal.fixedWidth_pair (d := '=') hrest rfl '='
      simp [Terminal.width, Terminal.firstFixedWidth, Terminal.comparisons,
        Terminal.fixedWidth_first, hpair]
    · exact Terminal.width_eq_none (hfirst u hu hcompare)
  | colon =>
    cases hfits
    have hfirst : ∀ u ∈ preferred .colon, u ≠ .becomes → u.opens ':' = false := by decide
    refine ⟨.colon, matchWidth_eq (fun u hu _ => ?_) haccepts hwidth, rfl⟩
    by_cases hbecomes : u = .becomes
    · subst hbecomes
      exact Terminal.fixedWidth_pair hrest rfl ':'
    · exact Terminal.width_eq_none (hfirst u hu hbecomes)
  | _ =>
    cases hfits
    exact ⟨_, matchWidth_of_opens (by decide) haccepts hwidth, rfl⟩

/-- A token that ends before what follows is cut off whole wherever its terminal is accepted. -/
theorem front_eq {token : Token} (hfits : token.Fits) (hplain : token.Plain)
    (haccepts : accepts token.terminal)
    (hdo : accepts (.keyword .do) → accepts (.keyword .double) → accepts .ident)
    (hrest : token.terminal.EndsBefore rest) : front accepts (token.text ++ rest) = some token := by
  obtain ⟨u, hmatch, hreserve⟩ := exists_matchWidth hfits hplain haccepts hdo hrest
  rw [front, hmatch]
  simp only [Option.map_some, List.take_left, hreserve]

/-- What is cut off is accepted and matches the pattern of its terminal. -/
theorem front_fits {token : Token} (h : front accepts cs = some token) :
    accepts token.terminal ∧ token.Fits := by
  obtain ⟨⟨t, n⟩, hmatch, rfl⟩ := Option.map_eq_some_iff.1 h
  obtain ⟨u, -, hit⟩ := List.exists_of_findSome?_eq_some hmatch
  split at hit
  · next hacc =>
    obtain ⟨m, hwidth, heq⟩ := Option.map_eq_some_iff.1 hit
    obtain ⟨rfl, rfl⟩ := Prod.mk.inj heq
    have htakes := Terminal.takes_of_width hwidth
    show accepts (reserve accepts u (cs.take m)) ∧
      Terminal.Takes (reserve accepts u (cs.take m)) (cs.take m)
    -- only a name may turn out to be a reserved word
    cases u with
    | ident =>
      rw [reserve]
      split
      · next k hk =>
        split
        · next hkeyword =>
          have hfound := List.find?_some hk
          exact ⟨hkeyword, (beq_iff_eq.1 hfound).symm⟩
        · exact ⟨hacc, htakes⟩
      · exact ⟨hacc, htakes⟩
    | _ => exact ⟨hacc, htakes⟩
  · cases hit

/-! ## Between tokens -/

/-- Blanks and comments, each comment with the end of its line. -/
inductive Gap : List Char → Prop where
  | nil : Gap []
  | blank {c : Char} {cs : List Char} (hc : isSpace c) (hcs : Gap cs) : Gap (c :: cs)
  | comment {line cs : List Char} (hline : '\n' ∉ line) (hcs : Gap cs) :
      Gap ('/' :: '/' :: (line ++ '\n' :: cs))

/-- What may stand after the last token of a text, whose last comment may end with the text. -/
inductive Ending : List Char → Prop where
  | gap {cs : List Char} (hcs : Gap cs) : Ending cs
  | comment {cs line : List Char} (hcs : Gap cs) (hline : '\n' ∉ line) :
      Ending (cs ++ '/' :: '/' :: line)

theorem Ending.blank (hc : isSpace c) (hcs : Ending cs) : Ending (c :: cs) := by
  cases hcs with
  | gap hcs => exact .gap (.blank hc hcs)
  | comment hcs hline => exact .comment (.blank hc hcs) hline

theorem Ending.after_line {line : List Char} (hline : '\n' ∉ line) (hcs : Ending cs) :
    Ending ('/' :: '/' :: (line ++ '\n' :: cs)) := by
  cases hcs with
  | gap hcs => exact .gap (.comment hline hcs)
  | comment hcs hlast =>
    have := Ending.comment (.comment hline hcs) hlast
    simpa using this

/-- Inside a comment the rest of the line is dropped. -/
theorem skipFrom_comment (cs : List Char) :
    ∃ line, '\n' ∉ line ∧ (cs = line ∧ skipFrom true cs = [] ∨
      ∃ more, cs = line ++ '\n' :: more ∧ skipFrom true cs = skipFrom false more) := by
  induction cs with
  | nil => exact ⟨[], by simp, .inl ⟨rfl, rfl⟩⟩
  | cons c cs ih =>
    by_cases hc : c = '\n'
    · subst hc
      exact ⟨[], by simp, .inr ⟨cs, rfl, rfl⟩⟩
    · obtain ⟨line, hline, hrest⟩ := ih
      have hnot : '\n' ∉ c :: line := by simpa [Ne.symm hc] using hline
      have hstep : skipFrom true (c :: cs) = skipFrom true cs := by
        rw [skipFrom, bne_iff_ne.2 hc]
      rcases hrest with ⟨rfl, hend⟩ | ⟨more, rfl, hmore⟩
      · exact ⟨c :: cs, hnot, .inl ⟨rfl, hstep.trans hend⟩⟩
      · exact ⟨c :: line, hnot, .inr ⟨more, rfl, hstep.trans hmore⟩⟩

/-- What is skipped is a gap, or the end of the text. -/
theorem exists_gap (cs : List Char) :
    ∃ gap, cs = gap ++ skip cs ∧ (Gap gap ∨ skip cs = [] ∧ Ending gap) := by
  induction hlength : cs.length using Nat.strongRecOn generalizing cs with
  | ind n ih =>
    subst hlength
    cases cs with
    | nil => exact ⟨[], rfl, .inl .nil⟩
    | cons c cs =>
      by_cases hc : isSpace c
      · obtain ⟨gap, hcs, hgap⟩ := ih cs.length (Nat.lt_succ_self _) cs rfl
        have hstep : skip (c :: cs) = skip cs := by simp [skip, skipFrom, hc]
        rw [hstep]
        exact ⟨c :: gap, congrArg (c :: ·) hcs, hgap.imp (.blank hc) (.imp_right (.blank hc))⟩
      · by_cases hcomment : c = '/' ∧ cs.head? = some '/'
        · -- the second slash belongs to the line that is dropped
          obtain ⟨rfl, hhead⟩ := hcomment
          obtain ⟨more, rfl⟩ := List.head?_eq_some_iff.1 hhead
          have hstep : skip ('/' :: '/' :: more) = skipFrom true more := rfl
          rw [hstep]
          obtain ⟨line, hline, ⟨rfl, hend⟩ | ⟨after, rfl, hafter⟩⟩ := skipFrom_comment more
          · rw [hend]
            exact ⟨_, (List.append_nil _).symm, .inr ⟨rfl, .comment .nil hline⟩⟩
          · have hlt : after.length < ('/' :: '/' :: (line ++ '\n' :: after)).length := by
              simp only [List.length_cons, List.length_append]
              omega
            obtain ⟨gap, hcs, hgap⟩ := ih after.length hlt after rfl
            rw [hafter]
            refine ⟨'/' :: '/' :: (line ++ '\n' :: gap), ?_, hgap.imp (.comment hline)
              (.imp_right (.after_line hline))⟩
            simpa [skip] using hcs
        · have hstep : skip (c :: cs) = c :: cs := by
            rw [skip, skipFrom, if_neg hc, if_neg]
            simpa using hcomment
          exact ⟨[], hstep.symm, .inl .nil⟩

theorem skip_blanks {gap : List Char} (hgap : ∀ c ∈ gap, isSpace c) (cs : List Char) :
    skip (gap ++ cs) = skip cs := by
  induction gap with
  | nil => rfl
  | cons c gap ih =>
    rw [List.forall_mem_cons] at hgap
    rw [List.cons_append, skip, skipFrom, if_pos hgap.1]
    exact ih hgap.2

/-- Nothing of a token is skipped. -/
theorem skip_append {token : Token} (hfits : token.Fits)
    (hrest : token.terminal.EndsBefore rest) :
    skip (token.text ++ rest) = token.text ++ rest := by
  obtain ⟨t, text⟩ := token
  obtain ⟨c, more, rfl⟩ := List.exists_cons_of_ne_nil (Terminal.takes_ne_nil hfits)
  have hopens := Terminal.opens_of_takes hfits
  rw [List.cons_append, skip, skipFrom, if_neg, if_neg]
  · -- the one token that starts like a comment is a single character
    intro hcomment
    rw [Bool.and_eq_true, beq_iff_eq, beq_iff_eq] at hcomment
    obtain ⟨rfl, hhead⟩ := hcomment
    have ht : t = .mulOp := by
      cases t with
      | keyword k => cases k <;> cases hopens
      | mulOp => rfl
      | _ => cases hopens
    subst ht
    have hmore : more = [] := by simpa [Fits, Terminal.Takes] using hfits
    subst hmore
    have hslash := hrest '/' (by simpa using hhead)
    cases hslash
  · rw [Terminal.isSpace_eq_false hopens]
    exact Bool.false_ne_true

end Token

end MiniAlgol
