import MiniAlgol.Eval
import MiniAlgol.Proofs.Source.Shape

/-!
# Literals have values

The text of a literal token is converted to a value, whatever digits it is written in, unless it is
an integer with too many of them (`literalValue_error`).
-/

namespace MiniAlgol.Source

open Terminal

variable {cs : List Char} {c : Char}

/-! ## Digits -/

/-- The code points of the blanks. -/
def blanks : List Nat :=
  [0x20, 0x09, 0x0a, 0x0b, 0x0c, 0x0d, 0x85, 0xa0, 0x1680, 0x2000, 0x2001, 0x2002, 0x2003, 0x2004,
   0x2005, 0x2006, 0x2007, 0x2008, 0x2009, 0x200a, 0x2028, 0x2029, 0x202f, 0x205f, 0x3000]

theorem mem_blanks (h : Text.isBlank c) : c.toNat ∈ blanks := by
  simp only [Text.isBlank, Bool.or_eq_true, Bool.and_eq_true, beq_iff_eq, decide_eq_true_eq] at h
  simp only [blanks, List.mem_cons, List.not_mem_nil, or_false]
  omega

/-- No digit of any script is a blank. -/
theorem isBlank_eq_false (h : Text.isDecimalDigit c) : Text.isBlank c = false := by
  -- there are few blanks, and none of them is a digit
  have hnone : ∀ n ∈ blanks, (if n < 0x80 then Text.digitFrom n 0x30
      else Text.foreignZeros.findSome? (Text.digitFrom n)) = none := by
    decide
  by_contra hblank
  have hc := hnone _ (mem_blanks (eq_true_of_ne_false hblank))
  rw [Text.isDecimalDigit, Text.decimalDigit?, hc] at h
  cases h

theorem ne_of_isDecimalDigit {d : Char} (h : Text.isDecimalDigit c)
    (hd : Text.isDecimalDigit d = false) : c ≠ d := by
  rintro rfl
  rw [h] at hd
  cases hd

theorem splitSign_digit (h : Text.isDecimalDigit c) :
    Numeral.splitSign (c :: cs) = (false, c :: cs) := by
  unfold Numeral.splitSign
  split
  · next heq =>
    cases heq
    exact absurd rfl (ne_of_isDecimalDigit h (by decide))
  · next heq =>
    cases heq
    exact absurd rfl (ne_of_isDecimalDigit h (by decide))
  · rfl

theorem underscoresFit_digits (hcs : ∀ d ∈ cs, Text.isDecimalDigit d) :
    Numeral.underscoresFit true cs := by
  induction cs with
  | nil => rfl
  | cons d cs ih =>
    rw [List.forall_mem_cons] at hcs
    rw [Numeral.underscoresFit, if_neg (ne_of_isDecimalDigit hcs.1 (by decide))]
    exact ih hcs.2

/-! ## Numerals -/

/-- Digits are an integer numeral, unless there are too many. -/
theorem readInteger_digits (hcs : IsDigits cs) :
    Numeral.readInteger (String.ofList cs)
      = if Numeral.maxDigits < (cs.filterMap Text.decimalDigit?).length then
          .error (.tooManyDigits (cs.filterMap Text.decimalDigit?).length)
        else .ok (Numeral.ofDigits (cs.filterMap Text.decimalDigit?)) := by
  obtain ⟨hne, hdigits⟩ := hcs
  obtain ⟨c, more, rfl⟩ := List.exists_cons_of_ne_nil hne
  have hc := hdigits c List.mem_cons_self
  have hall : ∀ d ∈ c :: more, Numeral.isDigitOrUnderscore d := fun d hd => by
    simp [Numeral.isDigitOrUnderscore, hdigits d hd]
  have hstart : (c :: more).dropWhile Text.isBlank = c :: more := by
    rw [List.dropWhile_cons, isBlank_eq_false hc]
    rfl
  have hfit : Numeral.underscoresFit false (c :: more) := by
    rw [Numeral.underscoresFit, if_neg (ne_of_isDecimalDigit hc (by decide))]
    exact underscoresFit_digits fun d hd => hdigits d (List.mem_cons_of_mem _ hd)
  -- nothing is left over on either side of the digits
  unfold Numeral.readInteger
  rw [String.toList_ofList, hstart, splitSign_digit hc]
  simp only [List.takeWhile_eq_self_iff.2 hall, List.dropWhile_eq_nil_iff.2 hall, hfit,
    Bool.not_true, Bool.false_eq_true, if_false, List.all_nil, if_true, Numeral.signed]

theorem underscoresBetweenDigits_of_not_mem (hcs : '_' ∉ cs) (afterDigit : Bool) :
    Numeral.underscoresBetweenDigits afterDigit cs := by
  induction cs generalizing afterDigit with
  | nil => rfl
  | cons d cs ih =>
    rw [List.mem_cons, not_or] at hcs
    have hd : d ≠ '_' := Ne.symm hcs.1
    unfold Numeral.underscoresBetweenDigits
    split
    · next heq => cases heq
    · next heq =>
      cases heq
      exact absurd rfl hd
    · next heq =>
      cases heq
      exact ih hcs.2 _

theorem trimBlanks_eq {first last : Char} (middle : List Char) (hfirst : Text.isBlank first = false)
    (hlast : Text.isBlank last = false) :
    Text.trimBlanks (first :: (middle ++ [last])) = first :: (middle ++ [last]) := by
  have hreverse : (first :: (middle ++ [last])).reverse
      = last :: (first :: middle).reverse := by simp
  rw [Text.trimBlanks, List.dropWhile_cons, hfirst]
  simp only [Bool.false_eq_true, if_false]
  rw [hreverse, List.dropWhile_cons, hlast]
  simp

theorem splitDigits_append {rest : List Char} (hcs : ∀ d ∈ cs, Text.isDecimalDigit d)
    (hrest : rest.takeWhile Text.isDecimalDigit = []) :
    Numeral.splitDigits (cs ++ rest) = (cs.filterMap Text.decimalDigit?, rest) := by
  have hdrop : rest.dropWhile Text.isDecimalDigit = rest := by
    have hsplit := List.takeWhile_append_dropWhile (p := Text.isDecimalDigit) (l := rest)
    rwa [hrest, List.nil_append] at hsplit
  rw [Numeral.splitDigits, List.takeWhile_append_of_pos hcs, List.dropWhile_append_of_pos hcs,
    hrest, hdrop, List.append_nil]

theorem exists_readMagnitude {whole fraction : List Char} (hwhole : IsDigits whole)
    (hfraction : IsDigits fraction) :
    ∃ x, Numeral.readMagnitude (whole ++ '.' :: fraction) = some x := by
  have hpoint : ('.' :: fraction).takeWhile Text.isDecimalDigit = [] := by
    rw [List.takeWhile_cons, if_neg (by decide)]
  have hafter := splitDigits_append hfraction.2 (List.takeWhile_nil (p := Text.isDecimalDigit))
  rw [List.append_nil] at hafter
  have hne : (whole.filterMap Text.decimalDigit?).isEmpty = false := by
    obtain ⟨c, more, rfl⟩ := List.exists_cons_of_ne_nil hwhole.1
    obtain ⟨d, hd⟩ := Option.isSome_iff_exists.1 (hwhole.2 c List.mem_cons_self)
    rw [List.filterMap_cons_some hd]
    rfl
  -- a word for infinity or for no number would be a magnitude too
  unfold Numeral.readMagnitude
  split
  · exact ⟨_, rfl⟩
  · rw [splitDigits_append hwhole.2 hpoint]
    simp only [Numeral.splitFraction, hafter, hne, Bool.false_and, Bool.false_eq_true, if_false]
    exact ⟨_, rfl⟩

/-- Digits with a point among them are a real numeral. -/
theorem readReal_digits {whole fraction : List Char} (hwhole : IsDigits whole)
    (hfraction : IsDigits fraction) :
    ∃ x, Numeral.readReal (String.ofList (whole ++ '.' :: fraction)) = .ok x := by
  obtain ⟨x, hx⟩ := exists_readMagnitude hwhole hfraction
  obtain ⟨first, before, hfirst⟩ := List.exists_cons_of_ne_nil hwhole.1
  obtain ⟨after, last, hlast⟩ : ∃ after last, fraction = after ++ [last] :=
    ⟨_, _, (List.dropLast_concat_getLast hfraction.1).symm⟩
  -- no blank to trim, no sign to split off and no underscore to drop
  have hdigit : ∀ d ∈ whole ++ '.' :: fraction, d = '.' ∨ Text.isDecimalDigit d := by
    intro d hd
    rcases List.mem_append.1 hd with hd | hd
    · exact .inr (hwhole.2 d hd)
    · exact (List.mem_cons.1 hd).imp_right (hfraction.2 d)
  have hunderscore : '_' ∉ whole ++ '.' :: fraction := fun hmem =>
    (hdigit '_' hmem).elim (by decide) (by decide)
  have hfirstDigit : Text.isDecimalDigit first := hwhole.2 first (by rw [hfirst]; simp)
  have hlastDigit : Text.isDecimalDigit last := hfraction.2 last (by rw [hlast]; simp)
  have htrim : Text.trimBlanks (whole ++ '.' :: fraction) = whole ++ '.' :: fraction := by
    have := trimBlanks_eq (before ++ '.' :: after) (isBlank_eq_false hfirstDigit)
      (isBlank_eq_false hlastDigit)
    simpa [hfirst, hlast] using this
  have hsign : Numeral.splitSign (whole ++ '.' :: fraction)
      = (false, whole ++ '.' :: fraction) := by
    rw [hfirst, List.cons_append]
    exact splitSign_digit hfirstDigit
  have hfilter : (whole ++ '.' :: fraction).filter (· != '_') = whole ++ '.' :: fraction := by
    rw [List.filter_eq_self]
    intro d hd
    rw [bne_iff_ne]
    rintro rfl
    exact hunderscore hd
  refine ⟨x, ?_⟩
  simp only [Numeral.readReal, String.toList_ofList, htrim, hfilter, hsign,
    underscoresBetweenDigits_of_not_mem hunderscore, if_true, hx, Bool.false_eq_true, if_false]

/-! ## Values -/

theorem literalValue_int (text : String) :
    literalValue text "int" = (do
      return .int (← ((Numeral.readInteger text).mapError .numeral).mapError .literal)) :=
  rfl

theorem literalValue_double (text : String) :
    literalValue text "double" = (do
      return .real (← ((Numeral.readReal text).mapError .numeral).mapError .literal)) :=
  rfl

/-- A literal has no value only if it is an integer with too many digits. -/
theorem literalValue_error {t : Token} {text kind : Label} {f : Fault} (ht : t.Fits)
    (hx : literal? t = some (.literal text kind)) (hf : literalValue text kind = .error f) :
    ∃ count, f = .literal (.numeral (.tooManyDigits count)) := by
  obtain ⟨terminal, cs⟩ := t
  cases terminal with
  | intLit =>
    cases hx
    rw [literalValue_int, readInteger_digits ht] at hf
    split at hf
    · cases hf
      exact ⟨_, rfl⟩
    · cases hf
  | realLit =>
    cases hx
    obtain ⟨whole, fraction, rfl, hwhole, hfraction⟩ := ht
    obtain ⟨x, hx⟩ := readReal_digits hwhole hfraction
    rw [literalValue_double, hx] at hf
    cases hf
  | stringLit =>
    cases hx
    cases hf
  | keyword k => cases k <;> cases hx <;> cases hf
  | _ => cases hx

end MiniAlgol.Source
