import MiniAlgol.Proofs.Source.Concatenation

/-!
# Layout

Blanks and comments may be added before a program and after any of its tokens without changing what
it means (`parse_loosened`). A token is cut off under the eyes of what follows it: a sign may go on
to a sign of two characters, an integer to a real, a slash to a comment. So the point to show is
that nothing is cut differently when a text goes on with a blank, or as it went on before
(`Resumes`). For a token itself that is `Terminal.width_resumes`, for the terminals that are
preferred to it `Terminal.width_eq_none_of_resumes`, and both together are `Token.front_resumes`.
-/

namespace MiniAlgol

/-- A text goes on with a blank, or as another one did, or not at all. -/
def Resumes (rest rest' : List Char) : Prop :=
  ∀ c ∈ rest'.head?, Token.isSpace c ∨ c ∈ rest.head?

theorem Resumes.head_ne_point {rest rest' : List Char} (h : Resumes rest rest')
    (hpoint : rest.head? ≠ some '.') : rest'.head? ≠ some '.' := by
  intro hhead
  rcases h '.' hhead with hspace | hhead
  · cases hspace
  · exact hpoint hhead

/-! ## What a terminal takes of a text that goes on otherwise -/

namespace Terminal

variable {t u : Terminal} {c d : Char} {rest rest' text more : List Char} {n : Nat}

theorem isSome_digitsWidth (h : IsDigits text) (rest : List Char) :
    (digitsWidth (text ++ rest)).isSome := by
  obtain ⟨c, more, rfl⟩ := List.exists_cons_of_ne_nil h.1
  have hc : Text.isDecimalDigit c = true := h.2 c List.mem_cons_self
  rw [List.cons_append, digitsWidth, List.takeWhile_cons, if_pos hc]
  rfl

theorem isSome_firstFixedWidth {texts : List (List Char)} (h : text ∈ texts) (rest : List Char) :
    (firstFixedWidth texts (text ++ rest)).isSome := by
  refine List.findSome?_isSome_iff.2 ⟨text, h, ?_⟩
  rw [fixedWidth_append]
  rfl

/-- A terminal takes something of what starts with a text of it. -/
theorem isSome_width_of_takes (h : t.Takes text) (rest : List Char) :
    (t.width (text ++ rest)).isSome := by
  cases t with
  | ident =>
    obtain ⟨c, more, rfl, hc, -⟩ := h
    rw [List.cons_append, width, nameWidth, if_pos hc]
    rfl
  | compareOp | addOp | mulOp => exact isSome_firstFixedWidth h rest
  | realLit =>
    obtain ⟨whole, fraction, rfl, hwhole, hfraction⟩ := h
    have hpoint : ('.' :: (fraction ++ rest)).takeWhile Text.isDecimalDigit = [] := by
      rw [List.takeWhile_cons, if_neg (by decide)]
    rw [List.append_assoc, List.cons_append, width, realWidth, digitsWidth_append hwhole hpoint]
    simp only [List.drop_left, Option.isSome_map]
    exact isSome_digitsWidth hfraction rest
  | intLit => exact isSome_digitsWidth h rest
  | stringLit =>
    rw [width_of_takes h fun _ _ => rfl]
    rfl
  | _ =>
    cases h
    rw [width, spelling, fixedWidth_append]
    rfl

/-- A terminal whose texts are listed one by one. -/
def IsSign (u : Terminal) : Prop :=
  u ≠ .ident ∧ u ≠ .realLit ∧ u ≠ .intLit ∧ u ≠ .stringLit ∧ ∀ k, u ≠ .keyword k

/-- A sign has at most two characters, none of which is a blank. -/
theorem IsSign.takes (hu : u.IsSign) (h : u.Takes text) :
    text.length ≤ 2 ∧ (Token.isSpace c → c ∉ text) := by
  obtain ⟨hname, hreal, hint, hstring, hkeyword⟩ := hu
  cases u with
  | ident => exact absurd rfl hname
  | realLit => exact absurd rfl hreal
  | intLit => exact absurd rfl hint
  | stringLit => exact absurd rfl hstring
  | keyword k => exact absurd rfl (hkeyword k)
  | compareOp | addOp | mulOp =>
    refine ⟨?_, fun hc => of_isSpace (P := fun d => ∀ text ∈ _, d ∉ text) (by decide) hc text h⟩
    simp only [Takes, comparisons, List.mem_cons, List.not_mem_nil, or_false] at h
    grind
  | _ =>
    cases h
    exact ⟨by decide, fun hc => of_isSpace (P := (· ∉ _)) (by decide) hc⟩

/-- Only a number starts with a digit. -/
theorem eq_of_opens_digit (hd : Text.isDecimalDigit d) (h : t.opens d) :
    t = .intLit ∨ t = .realLit := by
  cases t with
  | intLit => exact .inl rfl
  | realLit => exact .inr rfl
  | ident =>
    rw [not_isDecimalDigit_of_isNameStart h] at hd
    cases hd
  | keyword k =>
    obtain ⟨c, more, htext, hc, -⟩ := k.isName_text
    have hcd : c = d := by simpa [opens, spelling, htext] using h
    rw [← hcd, not_isDecimalDigit_of_isNameStart hc] at hd
    cases hd
  | compareOp =>
    simp only [opens, Bool.or_eq_true, beq_iff_eq] at h
    rcases h with ((rfl | rfl) | rfl) | rfl <;> exact absurd hd (by decide)
  | addOp | mulOp =>
    simp only [opens, Bool.or_eq_true, beq_iff_eq] at h
    rcases h with rfl | rfl <;> exact absurd hd (by decide)
  | _ =>
    simp only [opens, spelling, beq_iff_eq, List.head?_cons, Option.some.injEq] at h
    subst h
    exact absurd hd (by decide)

theorem eq_of_opens_quote (h : t.opens '"') : t = .stringLit := by
  cases t with
  | stringLit => rfl
  | keyword k => cases k <;> cases h
  | _ => cases h

/-- A reserved word is preferred to reserved words only. -/
theorem exists_keyword_of_preferred {k : Keyword} (h : .keyword k ∈ Token.preferred t) :
    ∃ j, t = .keyword j := by
  have hall : ∀ t ∈ all.take 16, ∀ k ∈ Keyword.all, keyword k ∉ Token.preferred t := by decide
  cases t with
  | keyword j => exact ⟨j, rfl⟩
  | _ => exact absurd h (hall _ (by decide) k k.mem_all)

/-- Digits that are an integer are followed by no digit. -/
theorem not_isDecimalDigit_of_digitsWidth (htext : ∀ d ∈ text, Text.isDecimalDigit d)
    (hwidth : digitsWidth (text ++ c :: more) = some text.length) : Text.isDecimalDigit c = false := by
  by_contra hc
  rw [Bool.not_eq_false] at hc
  have hlength := (digitsWidth_eq hwidth).1
  rw [List.takeWhile_append_of_pos htext, List.takeWhile_cons, if_pos hc] at hlength
  simp only [List.length_append, List.length_cons] at hlength
  omega

/-- A sign of two characters would have been taken, had its second one followed. -/
theorem IsSign.not_takes_past (hsign : u.IsSign) (htext : text ≠ [])
    (hnone : u.width (text ++ rest) = none) (hc : Token.isSpace c ∨ c ∈ rest.head?) :
    ¬ u.Takes (text ++ c :: more) := by
  intro hpast
  obtain ⟨hlength, hblank⟩ := hsign.takes (c := c) hpast
  have hpos := List.length_pos_of_ne_nil htext
  obtain rfl : more = [] := by
    refine List.length_eq_zero_iff.1 ?_
    simp only [List.length_append, List.length_cons] at hlength
    omega
  have hhead : c ∈ rest.head? := by
    refine hc.resolve_left fun hspace => ?_
    exact hblank hspace (by simp)
  obtain ⟨after, rfl⟩ := List.head?_eq_some_iff.1 hhead
  have hsome := isSome_width_of_takes hpast after
  rw [List.append_assoc, List.singleton_append, hnone] at hsome
  cases hsome

/-- What follows an integer is no digit, so there is no room for the point of a real. -/
theorem realLit_not_takes_past (htext : intLit.Takes text)
    (hwidth : intLit.width (text ++ rest) = some text.length)
    (hc : Token.isSpace c ∨ c ∈ rest.head?) (hpoint : c ≠ '.') :
    ¬ realLit.Takes (text ++ c :: more) := by
  rintro ⟨whole, fraction, heq, hwhole, hfraction⟩
  have hmem : c ∈ whole ++ '.' :: fraction := heq ▸ by simp
  have hdigit : Text.isDecimalDigit c := by
    rcases List.mem_append.1 hmem with hmem | hmem
    · exact hwhole.2 c hmem
    · rcases List.mem_cons.1 hmem with hmem | hmem
      · exact absurd hmem hpoint
      · exact hfraction.2 c hmem
  have hhead : c ∈ rest.head? := by
    refine hc.resolve_left fun hspace => ?_
    rw [of_isSpace (P := (Text.isDecimalDigit · = false)) (by decide) hspace] at hdigit
    cases hdigit
  obtain ⟨after, rfl⟩ := List.head?_eq_some_iff.1 hhead
  rw [not_isDecimalDigit_of_digitsWidth htext.2 hwidth] at hdigit
  cases hdigit

/-- What is preferred to a terminal takes no text that goes past the one that it takes. -/
theorem not_takes_past (hu : u ∈ Token.preferred t) (htakes : t.Takes text)
    (hwidth : t.width (text ++ rest) = some text.length) (hnone : u.width (text ++ rest) = none)
    (hc : Token.isSpace c ∨ c ∈ rest.head?) (hpoint : c ≠ '.') :
    ¬ u.Takes (text ++ c :: more) := by
  intro hpast
  have hne : u ≠ t := by simpa using List.mem_takeWhile_imp hu
  by_cases hsign : u.IsSign
  · exact hsign.not_takes_past (takes_ne_nil htakes) hnone hc hpast
  -- both open with the first character
  obtain ⟨d, tail, htext⟩ := List.exists_cons_of_ne_nil (takes_ne_nil htakes)
  have hopens : u.opens d := by
    rw [htext] at hpast
    exact opens_of_takes hpast
  have htopens : t.opens d := by
    rw [htext] at htakes
    exact opens_of_takes htakes
  cases u with
  | ident =>
    have hstart : isNameStart d = true := hopens
    rw [htext, List.cons_append, width, nameWidth, if_pos hstart] at hnone
    cases hnone
  | realLit =>
    rcases eq_of_opens_digit hopens htopens with rfl | rfl
    · exact realLit_not_takes_past htakes hwidth hc hpoint hpast
    · exact hne rfl
  | intLit =>
    rcases eq_of_opens_digit hopens htopens with rfl | rfl
    · exact hne rfl
    · exact absurd hu (by decide)
  | stringLit =>
    have hquote : d = '"' := by simpa [opens] using hopens
    subst hquote
    exact hne (eq_of_opens_quote htopens).symm
  | keyword k =>
    obtain ⟨j, rfl⟩ := exists_keyword_of_preferred hu
    have hprefix : j.text.toList.isPrefixOf k.text.toList := by
      have hj : text = j.text.toList := htakes
      have hk : text ++ c :: more = k.text.toList := hpast
      rw [← hj, ← hk]
      exact List.isPrefixOf_iff_prefix.2 (List.prefix_append text _)
    rcases Keyword.eq_of_isPrefixOf hprefix with rfl | ⟨rfl, rfl⟩
    · exact hne rfl
    · exact absurd hu (by decide)
  | _ => exact hsign (by simp [IsSign])

/-- What is preferred to a terminal takes nothing, however the text goes on. -/
theorem width_eq_none_of_resumes (hu : u ∈ Token.preferred t) (htakes : t.Takes text)
    (hwidth : t.width (text ++ rest) = some text.length) (hnone : u.width (text ++ rest) = none)
    (hresumes : Resumes rest rest') (hpoint : rest'.head? ≠ some '.') :
    u.width (text ++ rest') = none := by
  cases hpast : u.width (text ++ rest') with
  | none => rfl
  | some n =>
    exfalso
    have htake := takes_of_width hpast
    have hle := width_le hpast
    rw [List.length_append] at hle
    rcases Nat.lt_or_ge text.length n with hn | hn
    · obtain ⟨c, after, rfl⟩ : ∃ c after, rest' = c :: after :=
        List.exists_cons_of_ne_nil fun hnil => by
          rw [hnil, List.length_nil] at hle
          omega
      obtain ⟨k, rfl⟩ := Nat.exists_eq_add_of_lt hn
      rw [Nat.add_assoc, List.take_length_add_append, List.take_succ_cons] at htake
      refine not_takes_past hu htakes hwidth hnone (hresumes c rfl) ?_ htake
      rintro rfl
      exact hpoint rfl
    · -- what it takes, it would have taken before
      rw [List.take_append_of_le_length hn] at htake
      have hsome := isSome_width_of_takes htake (text.drop n ++ rest)
      rw [← List.append_assoc, List.take_append_drop, hnone] at hsome
      cases hsome

/-- What a text goes on with ends it, if what it went on with did. -/
theorem endsBefore_of_resumes (hresumes : Resumes rest rest')
    (hends : ∀ c more, rest = c :: more → c ∈ rest'.head? → t.endedBy c) :
    t.EndsBefore rest' := by
  intro c hc
  rcases hresumes c hc with hspace | hhead
  · exact t.endedBy_of_isSpace hspace
  · obtain ⟨more, hmore⟩ := List.head?_eq_some_iff.1 hhead
    exact hends c more hmore hc

/-- A name is followed by no character of names. -/
theorem not_isNameChar_of_width (htakes : ident.Takes text)
    (hwidth : ident.width (text ++ c :: more) = some text.length) : isNameChar c = false := by
  obtain ⟨d, tail, rfl, hd, htail⟩ := htakes
  by_contra hc
  rw [Bool.not_eq_false] at hc
  rw [List.cons_append, width, nameWidth, if_pos hd, List.takeWhile_append_of_pos htail,
    List.takeWhile_cons, if_pos hc] at hwidth
  simp at hwidth

/-- A real is followed by no digit. -/
theorem not_isDecimalDigit_of_width (htakes : realLit.Takes text)
    (hwidth : realLit.width (text ++ c :: more) = some text.length) :
    Text.isDecimalDigit c = false := by
  obtain ⟨whole, fraction, rfl, hwhole, hfraction⟩ := htakes
  have hend : ('.' :: (fraction ++ c :: more)).takeWhile Text.isDecimalDigit = [] := by
    rw [List.takeWhile_cons, if_neg (by decide)]
  rw [List.append_assoc, List.cons_append, width, realWidth, digitsWidth_append hwhole hend]
    at hwidth
  simp only [List.drop_left] at hwidth
  obtain ⟨n, hn, hlength⟩ := Option.map_eq_some_iff.1 hwidth
  have hfractionWidth : n = fraction.length := by
    simp only [List.length_append, List.length_cons] at hlength
    omega
  rw [hfractionWidth] at hn
  exact not_isDecimalDigit_of_digitsWidth hfraction.2 hn

/-- What a terminal took, it takes however the text goes on. -/
theorem width_resumes (htakes : t.Takes text) (hwidth : t.width (text ++ rest) = some text.length)
    (hresumes : Resumes rest rest') (hpoint : rest'.head? ≠ some '.') :
    t.width (text ++ rest') = some text.length := by
  cases t with
  | ident =>
    refine width_of_takes htakes (endsBefore_of_resumes hresumes ?_)
    rintro c more rfl -
    simpa [endedBy] using not_isNameChar_of_width htakes hwidth
  | realLit =>
    refine width_of_takes htakes (endsBefore_of_resumes hresumes ?_)
    rintro c more rfl -
    simpa [endedBy] using not_isDecimalDigit_of_width htakes hwidth
  | intLit =>
    refine width_of_takes htakes (endsBefore_of_resumes hresumes ?_)
    rintro c more rfl hc
    have hdigit := not_isDecimalDigit_of_digitsWidth htakes.2 hwidth
    have hne : c ≠ '.' := by
      rintro rfl
      exact hpoint hc
    simp [endedBy, hdigit, hne]
  | compareOp =>
    have hmem := htakes
    simp only [Takes, comparisons, List.mem_cons, List.not_mem_nil, or_false] at hmem
    rcases hmem with rfl | rfl | rfl | rfl | hsingle
    · rfl
    · rfl
    · rfl
    · rfl
    · -- the second character of a pair would have been taken
      refine width_of_takes htakes (endsBefore_of_resumes hresumes ?_)
      rintro c more rfl -
      refine bne_iff_ne.2 ?_
      rintro rfl
      rcases hsingle with rfl | rfl <;> cases hwidth
  | addOp | mulOp =>
    simp only [Takes, List.mem_cons, List.not_mem_nil, or_false] at htakes
    rcases htakes with rfl | rfl <;> rfl
  | stringLit => exact width_of_takes htakes fun _ _ => rfl
  | _ =>
    cases htakes
    exact fixedWidth_append _ rest'

end Terminal

namespace Token

variable {accepts : Terminal → Bool} {t u : Terminal} {c : Char} {n : Nat} {token : Token}
  {cs gap rest rest' text : List Char}

/-! ## Cutting off a token -/

/-- What is preferred to the terminal that is found takes nothing. -/
theorem width_preferred (h : matchWidth accepts cs = some (t, n)) :
    ∀ u ∈ preferred t, accepts u → u.width cs = none := by
  intro u hu haccepts
  obtain ⟨before, v, after, hall, hit, hbefore⟩ := List.findSome?_eq_some_iff.1 h
  obtain rfl : v = t := by
    split at hit
    · obtain ⟨m, -, heq⟩ := Option.map_eq_some_iff.1 hit
      exact congrArg Prod.fst heq
    · cases hit
  have hmem : u ∈ before := by
    have hstop : (v :: after).takeWhile (· != v) = [] := by simp
    rw [preferred, hall, List.takeWhile_append, hstop, List.append_nil] at hu
    split at hu
    · exact hu
    · exact (List.takeWhile_sublist _).subset hu
  have hnone := hbefore u hmem
  rw [if_pos haccepts] at hnone
  exact Option.map_eq_none_iff.1 hnone

/-- A token is cut off in the same way when the text goes on with a blank, or as it did. -/
theorem front_resumes (h : front accepts (token.text ++ rest) = some token)
    (hresumes : Resumes rest rest') (hpoint : rest'.head? ≠ some '.') :
    front accepts (token.text ++ rest') = some token := by
  obtain ⟨⟨t, n⟩, hmatch, htoken⟩ := Option.map_eq_some_iff.1 h
  obtain ⟨haccepts, hwidth⟩ := exists_of_matchWidth hmatch
  have htext : (token.text ++ rest).take n = token.text := congrArg Token.text htoken
  obtain rfl : n = token.text.length := by
    have hlength := congrArg List.length htext
    rw [List.length_take, Nat.min_eq_left (Terminal.width_le hwidth)] at hlength
    exact hlength
  have htakes : t.Takes token.text := by
    have htakes := Terminal.takes_of_width hwidth
    rwa [htext] at htakes
  have hpreferred : ∀ u ∈ preferred t, accepts u → u.width (token.text ++ rest') = none :=
    fun u hu hacc => Terminal.width_eq_none_of_resumes hu htakes hwidth
      (width_preferred hmatch u hu hacc) hresumes hpoint
  have hmatch' : matchWidth accepts (token.text ++ rest') = some (t, token.text.length) :=
    matchWidth_eq hpreferred haccepts (Terminal.width_resumes htakes hwidth hresumes hpoint)
  rw [front, hmatch', ← htoken]
  simp only [List.take_left, Option.map_some]

/-! ## What is skipped -/

/-- The end of its line ends a comment. -/
theorem skipFrom_line {line : List Char} (hline : '\n' ∉ line) (cs : List Char) :
    skipFrom true (line ++ '\n' :: cs) = skip cs := by
  induction line with
  | nil => rfl
  | cons c line ih =>
    rw [List.mem_cons, not_or] at hline
    rw [List.cons_append, skipFrom, bne_iff_ne.2 (Ne.symm hline.1)]
    exact ih hline.2

/-- A gap is skipped. -/
theorem skip_gap (hgap : Gap gap) (cs : List Char) : skip (gap ++ cs) = skip cs := by
  induction hgap with
  | nil => rfl
  | blank hc _ ih =>
    rw [List.cons_append, skip, skipFrom, if_pos hc]
    exact ih
  | @comment line gap hline _ ih =>
    have hstep : skip ('/' :: '/' :: (line ++ '\n' :: gap) ++ cs)
        = skipFrom true (line ++ '\n' :: (gap ++ cs)) := by
      rw [List.cons_append, List.cons_append, List.append_assoc, List.cons_append]
      rfl
    rw [hstep, skipFrom_line hline]
    exact ih

/-- What is skipped before a token is skipped however the text goes on after it. -/
theorem skipFrom_resumes {inComment : Bool} (htext : text ≠ [])
    (h : skipFrom inComment (gap ++ (text ++ rest)) = text ++ rest)
    (hresumes : Resumes rest rest') :
    skipFrom inComment (gap ++ (text ++ rest')) = text ++ rest' := by
  obtain ⟨d, tail, rfl⟩ := List.exists_cons_of_ne_nil htext
  induction gap generalizing inComment with
  | nil =>
    -- nothing is skipped, as less would be left
    have hkept : ∀ b, skipFrom b (tail ++ rest) ≠ d :: (tail ++ rest) := by
      intro b hb
      have hle := length_skipFrom_le b (tail ++ rest)
      rw [hb, List.length_cons] at hle
      omega
    cases inComment with
    | true => exact absurd h (hkept _)
    | false =>
      simp only [List.nil_append, List.cons_append, skipFrom] at h ⊢
      split at h
      · exact absurd h (hkept _)
      · split at h
        · exact absurd h (hkept _)
        · next hspace hcomment =>
          rw [if_neg hspace, if_neg]
          simp only [Bool.and_eq_true, beq_iff_eq, not_and] at hcomment ⊢
          intro hd hhead
          refine hcomment hd ?_
          cases tail with
          | cons e tail => exact hhead
          | nil => exact (hresumes '/' hhead).resolve_left (by decide)
  | cons c gap ih =>
    have hhead : (gap ++ (d :: tail ++ rest')).head? = (gap ++ (d :: tail ++ rest)).head? := by
      cases gap <;> rfl
    cases inComment with
    | true => exact ih h
    | false =>
      simp only [List.cons_append, skipFrom] at h ih ⊢
      rw [List.cons_append, List.cons_append] at hhead
      rw [hhead]
      split at h
      · next hspace =>
        rw [if_pos hspace]
        exact ih h
      · next hspace =>
        rw [if_neg hspace]
        split at h
        · next hcomment =>
          rw [if_pos hcomment]
          exact ih h
        · -- the gap would be left
          have hlength := congrArg List.length h
          simp only [List.length_cons, List.length_append] at hlength
          omega

end Token

namespace Source

variable {p q r : Parser} {t : Token} {gap rest rest' cs cs' : List Char}
  {last last' : Option (List Char)}

/-! ## Texts with more layout -/

/-- The second text is the first one, read from here by the parser, with blanks and comments added
here and right after tokens. What is added starts with a blank, and its comments end with their
lines. -/
inductive Loosened : Parser → List Char → List Char → Prop where
  | same {p : Parser} {cs : List Char} : Loosened p cs cs
  | gap {p : Parser} {c : Char} {gap cs cs' : List Char} (hc : Token.isSpace c)
      (hgap : Token.Gap gap) (hcs : Loosened p cs cs') : Loosened p cs (c :: (gap ++ cs'))
  | token {p q : Parser} {t : Token} {gap rest rest' : List Char}
      (hskip : Token.skip (gap ++ (t.text ++ rest)) = t.text ++ rest)
      (hfront : Token.front p.focus.accepts (t.text ++ rest) = some t)
      (hfeed : p.feed t = some q) (hrest : Loosened q rest rest') :
      Loosened p (gap ++ (t.text ++ rest)) (gap ++ (t.text ++ rest'))

theorem Loosened.resumes (h : Loosened p cs cs') : Resumes cs cs' := by
  cases h with
  | same => exact fun c hc => .inr hc
  | gap hc =>
    intro d hd
    cases hd
    exact .inl hc
  | @token _ q t gap rest rest' hskip hfront hfeed hrest =>
    obtain ⟨c, more, htext⟩ := List.exists_cons_of_ne_nil
      (Terminal.takes_ne_nil (Token.front_fits hfront).2)
    rw [htext]
    intro d hd
    right
    cases gap with
    | nil => exact hd
    | cons e gap => exact hd

/-- No token starts with a point. -/
theorem head_ne_point (h : readTokens p last cs = .done q last') : cs.head? ≠ some '.' := by
  intro hhead
  obtain ⟨more, rfl⟩ := List.head?_eq_some_iff.1 hhead
  have hfront : ∀ accepts, Token.front accepts ('.' :: more) = none := by
    intro accepts
    rw [Token.front, Option.map_eq_none_iff, Token.matchWidth, List.findSome?_eq_none_iff]
    intro t _
    have hopens : t.opens '.' = false := by
      cases t with
      | keyword k => cases k <;> rfl
      | _ => rfl
    rw [Terminal.width_eq_none hopens, Option.map_none, ite_self]
  have hskip : Token.skip ('.' :: more) = '.' :: more := rfl
  rw [readTokens_eq, hskip] at h
  simp only [hfront] at h
  cases h

/-- Where the last token started does not matter to what is read. -/
theorem readTokens_earlier (h : readTokens p last cs = .done q last')
    (earlier : Option (List Char)) : ∃ later, readTokens p earlier cs = .done q later := by
  rw [readTokens_eq] at h ⊢
  cases hskip : Token.skip cs with
  | nil =>
    rw [hskip] at h
    cases h
    exact ⟨earlier, rfl⟩
  | cons c rest =>
    rw [hskip] at h
    exact ⟨last', h⟩

/-- What was read to its end is read in the same way with more layout. -/
theorem readTokens_loosened (hloose : Loosened p cs cs') (h : readTokens p last cs = .done q last')
    (earlier : Option (List Char)) : ∃ later, readTokens p earlier cs' = .done q later := by
  induction hloose generalizing last earlier with
  | same => exact readTokens_earlier h earlier
  | @gap p c gap cs cs' hc hgap _ ih =>
    have hskip : Token.skip (c :: (gap ++ cs')) = Token.skip cs' :=
      Token.skip_gap (.blank hc hgap) cs'
    rw [readTokens_congr hskip]
    exact ih h earlier
  | @token p q t gap rest rest' hskip hfront hfeed hrest ih =>
    have hfits := (Token.front_fits hfront).2
    rw [readTokens_next hfits hskip hfront hfeed] at h
    have hskip' := Token.skipFrom_resumes (Terminal.takes_ne_nil hfits) hskip hrest.resumes
    have hpoint := hrest.resumes.head_ne_point (head_ne_point h)
    have hfront' := Token.front_resumes hfront hrest.resumes hpoint
    rw [readTokens_next hfits hskip' hfront' hfeed]
    exact ih h _

/-- Blanks and comments may be added at the start of an accepted source and after any of its tokens:
the source is still accepted, with the same program. -/
theorem parse_loosened {source source' : String} {program : Node}
    (h : parse source = .ok program)
    (hloose : Loosened Parser.initial source.toList source'.toList) :
    parse source' = .ok program := by
  obtain ⟨body, rfl⟩ : ∃ body, program = .program body := by
    unfold parse parseChars at h
    split at h
    · cases h
    · cases h
    · split at h <;> cases h
      exact ⟨_, rfl⟩
  obtain ⟨p, last, hread, hfinish, hlong⟩ := parse_eq_ok_iff.1 h
  obtain ⟨later, hread'⟩ := readTokens_loosened hloose hread none
  exact parse_eq_ok_iff.2 ⟨p, later, hread', hfinish, hlong⟩

/-- Between two words that stand together, where no name can be, a comment. -/
theorem parse_loosened_words :
    let source := "if(x)thenbegin end"
    let source' := "\t if(x)then // done\n\nbegin end "
    let body : List Node := [.ifStmt (.ident "x") (.block []) .missing]
    parse source = .ok (.program body) ∧
      Loosened Parser.initial source.toList source'.toList ∧
      parse source' = .ok (.program body) := by
  intro source source' body
  have h : parse source = .ok (.program body) := by cbv
  have hsource : source.toList =
      ['i', 'f', '(', 'x', ')', 't', 'h', 'e', 'n', 'b', 'e', 'g', 'i', 'n', ' ', 'e', 'n', 'd'] := by
    decide
  have hsource' : source'.toList =
      ['\t', ' ', 'i', 'f', '(', 'x', ')', 't', 'h', 'e', 'n', ' ', '/', '/', ' ', 'd', 'o', 'n',
        'e', '\n', '\n', 'b', 'e', 'g', 'i', 'n', ' ', 'e', 'n', 'd', ' '] := by
    decide
  have hcomment : Token.Gap ("// done".toList ++ ['\n', '\n']) :=
    @Token.Gap.comment [' ', 'd', 'o', 'n', 'e'] ['\n'] (by decide) (.blank rfl .nil)
  have hloose : Loosened Parser.initial source.toList source'.toList := by
    rw [hsource, hsource']
    refine @Loosened.gap _ '\t' [' '] _ _ rfl (.blank rfl .nil) ?_
    refine @Loosened.token _ _ ⟨.keyword .if, ['i', 'f']⟩ [] _ _ rfl (by decide) rfl ?_
    refine @Loosened.token _ _ ⟨.leftParen, ['(']⟩ [] _ _ rfl (by decide) rfl ?_
    refine @Loosened.token _ _ ⟨.ident, ['x']⟩ [] _ _ rfl (by decide) rfl ?_
    refine @Loosened.token _ _ ⟨.rightParen, [')']⟩ [] _ _ rfl (by decide) rfl ?_
    refine @Loosened.token _ _ ⟨.keyword .then, "then".toList⟩ [] _ _ rfl (by decide) rfl ?_
    refine @Loosened.gap _ ' ' _ _ _ rfl hcomment ?_
    refine @Loosened.token _ _ ⟨.keyword .begin, "begin".toList⟩ [] _ _ rfl (by decide) rfl ?_
    refine @Loosened.token _ _ ⟨.keyword .end, "end".toList⟩ [' '] _ _ rfl (by decide) rfl ?_
    exact @Loosened.gap _ ' ' [] _ _ rfl .nil .same
  exact ⟨h, hloose, parse_loosened h hloose⟩

end Source

end MiniAlgol
