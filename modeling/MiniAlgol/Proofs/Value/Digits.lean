import MiniAlgol.Numeral.Integer
import Mathlib.Algebra.Group.Nat.Defs
import Mathlib.Data.List.Basic

/-!
# The digits of an integer

The digits that an integer is written with have its value again (`ofDigits_toDigits`), they start
with a zero only when it is zero, and an integer below the bound on writing has no more of them
than may be read.
-/

namespace MiniAlgol.Numeral

theorem decimalDigit?_of_isDigit {d : Char} (hd : d.isDigit) :
    Text.decimalDigit? d = some (d.toNat - '0'.toNat) := by
  have hrange : 48 ≤ d.toNat ∧ d.toNat ≤ 57 := by
    simpa [Char.isDigit, UInt32.le_iff_toNat_le] using hd
  rw [Text.decimalDigit?, if_pos (by omega), Text.digitFrom, if_pos (by omega)]
  rfl

theorem isDigit_of_mem_toDigits {n : Nat} {d : Char} (hd : d ∈ Nat.toDigits 10 n) : d.isDigit :=
  Nat.isDigit_of_mem_toDigits (by decide) (by decide) hd

theorem ne_of_isDigit {c d : Char} (hd : d.isDigit) (hc : c.isDigit = false) : d ≠ c := by
  rintro rfl
  rw [hd] at hc
  cases hc

theorem exists_toDigits_eq_cons (n : Nat) :
    ∃ d ds, Nat.toDigits 10 n = d :: ds ∧ d.isDigit := by
  obtain ⟨d, ds, hds⟩ := List.exists_cons_of_ne_nil (Nat.toDigits_ne_nil (n := n) (b := 10))
  refine ⟨d, ds, hds, isDigit_of_mem_toDigits (n := n) ?_⟩
  rw [hds]
  exact List.mem_cons_self

theorem filterMap_toDigits (n : Nat) :
    (Nat.toDigits 10 n).filterMap Text.decimalDigit?
      = (Nat.toDigits 10 n).map fun d => d.toNat - '0'.toNat := by
  have hdigits : ∀ d ∈ Nat.toDigits 10 n, d.isDigit := fun d => isDigit_of_mem_toDigits
  generalize Nat.toDigits 10 n = ds at hdigits
  induction ds with
  | nil => rfl
  | cons d ds ih =>
    rw [List.forall_mem_cons] at hdigits
    rw [List.filterMap_cons_some (decimalDigit?_of_isDigit hdigits.1), ih hdigits.2, List.map_cons]

theorem ofDigits_toDigits (n : Nat) :
    ofDigits ((Nat.toDigits 10 n).filterMap Text.decimalDigit?) = n := by
  rw [filterMap_toDigits, ofDigits, List.foldl_map]
  exact Nat.ofDigitChars_ten_toDigits

/-- A number that has no more digits than may be written. -/
theorem lt_writeBound {n k : Nat} (hk : k ≤ maxDigits) (hn : n < 10 ^ k) : n < writeBound := by
  -- the bound is too large to be computed, so the power is a variable until the end
  have hpow : ∀ l, k ≤ l → n < Nat.pow 10 l := fun l hl =>
    Nat.lt_of_lt_of_le hn (Nat.pow_le_pow_right (by decide) hl)
  unfold writeBound
  exact hpow maxDigits hk

theorem length_filterMap_toDigits_le {n : Nat} (hn : n < writeBound) :
    ((Nat.toDigits 10 n).filterMap Text.decimalDigit?).length ≤ maxDigits := by
  -- the bound is too large to be computed, so the power is a variable until the end
  have hle : ∀ k, 0 < k → n < Nat.pow 10 k → (Nat.toDigits 10 n).length ≤ k :=
    fun k hk hlt => (Nat.length_toDigits_le_iff (by decide) hk).2 hlt
  unfold writeBound at hn
  rw [filterMap_toDigits, List.length_map]
  exact hle maxDigits (by decide) hn

theorem head?_toDigits_ne_zero {n : Nat} (hn : 0 < n) :
    (Nat.toDigits 10 n).head? ≠ some '0' := by
  induction n using Nat.strongRecOn with
  | ind n ih =>
    rcases Nat.lt_or_ge n 10 with hlt | hge
    · have hdigit : ∀ d < 10, 0 < d → [Nat.digitChar d].head? ≠ some '0' := by decide
      rw [Nat.toDigits_of_lt_base hlt]
      exact hdigit n hlt hn
    · rw [Nat.toDigits_of_base_le (by decide) hge,
        List.head?_append_of_ne_nil _ Nat.toDigits_ne_nil]
      exact ih (n / 10) (by omega) (by omega)

/-- No digit stands after a leading zero. -/
theorem eq_nil_of_toDigits_eq_zero_cons {n : Nat} {ds : List Char}
    (hds : Nat.toDigits 10 n = '0' :: ds) : ds = [] := by
  rcases Nat.eq_zero_or_pos n with rfl | hpos
  · simpa using hds.symm
  · refine absurd ?_ (head?_toDigits_ne_zero hpos)
    rw [hds]
    rfl

end MiniAlgol.Numeral
