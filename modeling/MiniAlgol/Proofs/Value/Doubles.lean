import MiniAlgol.Operator
import Mathlib

/-!
# Integers as doubles

Converting an integer to a double rounds it, and rounding could give zero. It does not:
`isZero_eq_false_of_toReal` says that a number that is not zero stays so as a double, so a divisor
that was checked before the conversion needs no check after it.

The argument follows the conversion through the datum that a double unpacks to. `Sizable` holds of
data that are infinite, or finite and within the exponents of doubles; rounding, packing and the
multiplications of the conversion keep it.
-/

namespace MiniAlgol

open Float.Model Float.Model.UnpackedFloat

/-- A datum that packs to a double other than zero. -/
def Sizable : UnpackedFloat → Prop
  | .infinity _ => True
  | .finite _ m e _ => m < 2 ^ 53 ∧ -1074 ≤ e
  | _ => False

/-! ## Rounding -/

theorem mantissa_shiftRight (x : ExtendedMantissa) (n : Nat) :
    (x >>> n).mantissa = x.mantissa / 2 ^ n := by
  show (n.repeat ExtendedMantissa.shiftRightOne x).mantissa = x.mantissa / 2 ^ n
  induction n with
  | zero => simp [Nat.repeat]
  | succ n ih =>
    rw [Nat.repeat, ExtendedMantissa.shiftRightOne, ih, Nat.div_div_eq_div_mul, Nat.pow_succ]

/-- Shifting to the exponent of a double leaves a mantissa of at most 53 bits, and one that is not
zero when the number is no smaller than the least double. -/
theorem shiftToTargetExponent_spec {m : Nat} {e : Int} (acc : Accuracy) (hm : 0 < m)
    (he : -1074 ≤ e + m.log2) :
    0 < (shiftToTargetExponent .binary64 m e acc).1.mantissa ∧
    (shiftToTargetExponent .binary64 m e acc).1.mantissa < 2 ^ 53 ∧
    -1074 ≤ (shiftToTargetExponent .binary64 m e acc).2 := by
  have hmantissa : ∀ acc, (ExtendedMantissa.ofMantissaAndAccuracy m acc).mantissa = m := by
    intro acc
    rcases acc with _ | (_ | _ | _) <;> rfl
  -- the shift drops all bits but 53, or fewer where the exponent would fall below the least one
  have htarget : Format.binary64.targetExponent (totalExponent m e) =
      max (m.log2 - 52 + e) (-1074) := by
    simp only [Format.targetExponent, totalExponent, Format.mantissaBits, Format.minExponent]
    norm_num
    omega
  simp only [shiftToTargetExponent, shiftToExponent, mantissa_shiftRight, hmantissa, htarget]
  generalize hshift : (max (m.log2 - 52 + e) (-1074) - e).toNat = shift
  have hbits : m < 2 ^ (m.log2 + 1) := Nat.lt_log2_self
  have hlow : 2 ^ m.log2 ≤ m := Nat.log2_self_le hm.ne'
  refine ⟨Nat.div_pos ?_ (Nat.two_pow_pos shift), ?_, by omega⟩
  · exact (Nat.pow_le_pow_right (by norm_num) (by omega)).trans hlow
  · rw [Nat.div_lt_iff_lt_mul (Nat.two_pow_pos shift), ← Nat.pow_add]
    exact hbits.trans_le (Nat.pow_le_pow_right (by norm_num) (by omega))

/-- Rounding goes up by at most one. -/
theorem roundedMantissa_bounds (x : ExtendedMantissa) :
    x.mantissa ≤ x.roundedMantissa ∧ x.roundedMantissa ≤ x.mantissa + 1 := by
  obtain ⟨m, round, sticky⟩ := x
  cases round <;> cases sticky <;>
    simp only [ExtendedMantissa.roundedMantissa, ExtendedMantissa.accuracy,
      Accuracy.roundToNearestEven] <;> omega

theorem sizable_roundWithAccuracy {m : Nat} {e : Int} (s : Sign) (acc : Accuracy) (hm : 0 < m)
    (he : -1074 ≤ e + m.log2) : Sizable (roundWithAccuracy .binary64 s m e acc) := by
  obtain ⟨hpos, hlt, hexp⟩ := shiftToTargetExponent_spec acc hm he
  obtain ⟨hup, hdown⟩ := roundedMantissa_bounds (shiftToTargetExponent .binary64 m e acc).1
  unfold roundWithAccuracy
  generalize shiftToTargetExponent .binary64 m e acc = first at *
  obtain ⟨hpos', hlt', hexp'⟩ := shiftToTargetExponent_spec (m := first.1.roundedMantissa)
    (e := first.2) .exact (by omega) (by omega)
  simp only
  rw [dif_neg hpos'.ne']
  exact ⟨hlt', hexp'⟩

/-! ## Packing -/

theorem sizable_unpack_packComponents (s : Sign) (e : BitVec 11) (m : BitVec 52)
    (hfinite : e = -1#11 → m = 0#52) (hzero : e = 0#11 → m ≠ 0#52) :
    Sizable (unpack .binary64 (packComponents .binary64 s e m)) := by
  have hm : m.toNat < 2 ^ 52 := m.isLt
  have hbias : Format.binary64.exponentBias = 1023 := by decide
  simp only [UnpackedFloat.unpack, unpackMantissa_packComponents, unpackExponent_packComponents]
  split
  · rename_i he
    rw [if_pos (hfinite he)]
    trivial
  · split
    · rename_i he
      rw [dif_neg (hzero he)]
      refine ⟨by omega, ?_⟩
      omega
    · rename_i he
      have hpos : e.toNat ≠ 0 := fun h => he (BitVec.eq_of_toNat_eq h)
      refine ⟨?_, ?_⟩
      · exact (1#1 ++ m).isLt
      · omega

theorem sizable_unpack_pack {u : UnpackedFloat} (hu : Sizable u) :
    Sizable (unpack .binary64 (pack .binary64 u)) := by
  cases u with
  | notANumber => exact hu.elim
  | zero s => exact hu.elim
  | infinity s => exact sizable_unpack_packComponents s _ _ (fun _ => rfl) (by decide)
  | finite s m e hm =>
    obtain ⟨hlt, he⟩ := hu
    unfold UnpackedFloat.pack
    have hbias : Format.binary64.exponentBias = 1023 := by decide
    simp only [hbias]
    split
    · exact sizable_unpack_packComponents s _ _ (fun _ => rfl) (by decide)
    · rename_i hfits
      generalize hbiased : (e + (1023 : Nat) + (52 : Nat)).toNat = biased at hfits ⊢
      split
      · -- a normal number: its exponent is neither all zeros nor all ones
        have hexp : (BitVec.ofNat 11 biased).toNat = biased := by
          rw [BitVec.toNat_ofNat, Nat.mod_eq_of_lt (by omega)]
        refine sizable_unpack_packComponents s _ _ (fun h => ?_) (fun h => ?_)
        · rw [h, show (-1#11).toNat = 2047 from rfl] at hexp
          omega
        · rw [h, show (0#11).toNat = 0 from rfl] at hexp
          omega
      · rename_i hsub
        refine sizable_unpack_packComponents s _ _ (fun h => absurd h (by decide)) (fun _ h => ?_)
        -- a subnormal one: its mantissa has at most 52 bits, and is not zero
        have hlog : m.log2 < 53 := (Nat.log2_lt hm.ne').2 hlt
        have hsub' : m.log2 + 1 ≠ 53 := hsub
        have hbits : m < 2 ^ 52 := (Nat.log2_lt hm.ne').1 (by omega)
        have hmantissa : (BitVec.ofNat 52 m).toNat = m := by
          rw [BitVec.toNat_ofNat, Nat.mod_eq_of_lt hbits]
        rw [h, show (0#52).toNat = 0 from rfl] at hmantissa
        omega

/-! ## Converting integers -/

theorem log2_mul_two_pow {m : Nat} (hm : 0 < m) (k : Nat) : (m * 2 ^ k).log2 = m.log2 + k := by
  induction k with
  | zero => simp
  | succ k ih =>
    have hpos : m * 2 ^ k ≠ 0 := by positivity
    rw [Nat.pow_succ, ← Nat.mul_assoc, Nat.mul_comm _ 2, Nat.log2_two_mul hpos, ih]
    omega

theorem sizable_mul_one {u : UnpackedFloat} (hu : Sizable u) :
    Sizable (mul .binary64 u (.finite .positive 0x10000000000000 (-52) (by decide))) := by
  cases u with
  | notANumber => exact hu.elim
  | zero s => exact hu.elim
  | infinity s => trivial
  | finite s m e hm =>
    refine sizable_roundWithAccuracy _ _ (by positivity) ?_
    rw [show 0x10000000000000 = 2 ^ 52 by norm_num, log2_mul_two_pow hm]
    have := hu.2
    omega

theorem sizable_neg {u : UnpackedFloat} (hu : Sizable u) : Sizable u.neg := by
  cases u <;> exact hu

theorem sizable_ofNat {n : Nat} (hn : 0 < n) : Sizable (ofNat .binary64 n) := by
  have hpositive : compare (n : Int) 0 = .gt := by
    rw [Int.compare_eq_gt]
    omega
  unfold UnpackedFloat.ofNat UnpackedFloat.ofInt UnpackedFloat.normalize
  rw [hpositive]
  simp only [Int.toNat_natCast, UnpackedFloat.round, decreaseExponent, Nat.shiftLeft_eq]
  refine sizable_roundWithAccuracy _ _ (by positivity) ?_
  rw [log2_mul_two_pow hn]
  omega

theorem sizable_ofScientific {n : Nat} (hn : 0 < n) : Sizable (ofScientific .binary64 n 0) := by
  unfold UnpackedFloat.ofScientific
  rw [dif_neg hn.ne', if_neg (by norm_num), if_neg (by norm_num), if_pos le_rfl]
  simp only [Nat.shiftLeft_eq]
  refine sizable_roundWithAccuracy _ _ (by positivity) ?_
  rw [Int.toNat_zero, Nat.pow_zero, Nat.mul_one, log2_mul_two_pow hn]
  omega

theorem sizable_float_ofNat {n : Nat} (hn : 0 < n) : Sizable (Float.ofNat n).toModel.unpack := by
  show Sizable (Float.ofScientific n false 0).toModel.unpack
  unfold Float.ofScientific
  split
  · -- a small integer is converted by the machine and multiplied by one
    rename_i hsmall
    have hcast : n.toUInt64.toNat = n := by
      rw [Nat.toUInt64_eq, UInt64.toNat_ofNat_of_lt']
      exact hsmall.1.trans (by decide)
    have hmachine : Sizable n.toUInt64.toFloat.toModel.unpack := by
      have hround := sizable_unpack_pack (sizable_ofNat hn)
      rw [← hcast] at hround
      exact hround
    have hone : (Float.ofBits 0x3FF0000000000000).toModel.unpack =
        .finite .positive 0x10000000000000 (-52) (by decide) := rfl
    have hproduct := sizable_mul_one hmachine
    rw [← hone] at hproduct
    exact sizable_unpack_pack hproduct
  · exact sizable_unpack_pack (sizable_ofScientific hn)

theorem sizable_float_ofInt {n : Int} (hn : n ≠ 0) : Sizable (Float.ofInt n).toModel.unpack := by
  cases n with
  | ofNat n => exact sizable_float_ofNat (Nat.pos_of_ne_zero fun h => hn (by rw [h]; rfl))
  | negSucc n => exact sizable_unpack_pack (sizable_neg (sizable_float_ofNat (Nat.succ_pos n)))

theorem beq_zero_of_sizable {x : Float} (hx : Sizable x.toModel.unpack) : (x == 0) = false := by
  show (x.toModel.unpack.compare (0 : Float).toModel.unpack == some .eq) = false
  rw [show (0 : Float).toModel.unpack = .zero .positive from rfl]
  generalize x.toModel.unpack = u at hx
  cases u with
  | notANumber => exact hx.elim
  | zero s => exact hx.elim
  | infinity s => cases s <;> rfl
  | finite s m e hm => cases s <;> rfl

/-- A number that is not zero is not zero as a double. -/
theorem isZero_eq_false_of_toReal {v : Value} {x : Float} (hv : v.isZero = false)
    (hx : v.toReal? = some x) : (x == 0) = false := by
  cases v with
  | int n =>
    simp only [Value.isZero, beq_eq_false_iff_ne] at hv
    simp only [Value.toReal?, Numeral.realOfInteger?] at hx
    split at hx
    · cases hx
      exact beq_zero_of_sizable (sizable_float_ofInt hv)
    · cases hx
  | real y =>
    cases hx
    exact hv
  | _ => cases hx

end MiniAlgol
