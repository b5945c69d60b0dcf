import MiniAlgol.Operator
import Mathlib

/-!
# Equality

What two values are compared by is one datum of each (`Value.identity`): the variant, and with it the
content of a scalar, or which array, routine or builtin it is. Values are equal exactly when these
data are (`Value.equal_iff_identity`), so equality is an equivalence (`Value.equivalence_equal`), and
values of different variants are never equal (`Value.variant_eq_of_equal`).

Reals are why this is not equality of values: the two zeros are equal, and what is no number is not
even equal to itself. When other doubles are equal is `beq_iff_unsigned_eq`.
-/

namespace MiniAlgol

open Float.Model Float.Model.UnpackedFloat

/-! ## Doubles -/

/-- The datum of a double, where a zero has no sign. -/
def unsigned : UnpackedFloat → UnpackedFloat
  | .zero _ => .zero .positive
  | x => x

theorem Sign.compare_eq_iff {s s' : Sign} : compare s s' = .eq ↔ s = s' := by
  cases s <;> cases s' <;> simp [compare]

/-- Comparing a number finds it equal to itself only, up to the sign of a zero. -/
theorem compare_eq_iff_unsigned_eq {x y : UnpackedFloat} (hx : x ≠ .notANumber) :
    x.compare y = some .eq ↔ unsigned x = unsigned y := by
  cases x with
  | notANumber => exact absurd rfl hx
  | infinity s =>
    cases y <;> cases s <;> simp [UnpackedFloat.compare, unsigned, Sign.compare_eq_iff]
  | zero s =>
    cases y with
    | finite s' => cases s' <;> simp [UnpackedFloat.compare, unsigned]
    | infinity s' => cases s' <;> simp [UnpackedFloat.compare, unsigned]
    | _ => simp [UnpackedFloat.compare, unsigned]
  | finite s m e hm =>
    cases y with
    | finite s' m' e' hm' =>
      -- one finite datum and another: signs, then exponents, then mantissas
      cases s <;> cases s' <;>
        simp [UnpackedFloat.compare, unsigned, Ordering.then_eq_eq, and_comm]
    | infinity s' => cases s <;> cases s' <;> simp [UnpackedFloat.compare, unsigned]
    | _ => cases s <;> simp [UnpackedFloat.compare, unsigned]

/-- A double that is a number is equal to those with its datum, up to the sign of a zero. -/
theorem beq_iff_unsigned_eq {x y : Float} (hx : x.isNaN = false) :
    (x == y) = true ↔ unsigned x.toModel.unpack = unsigned y.toModel.unpack := by
  have hnumber : x.toModel.unpack ≠ .notANumber := by
    intro hnan
    have hisNaN : x.toModel.unpack.isNaN = false := hx
    rw [hnan] at hisNaN
    cases hisNaN
  have hbeq : (x == y) = (x.toModel.unpack.compare y.toModel.unpack == some .eq) := rfl
  rw [hbeq, beq_iff_eq, compare_eq_iff_unsigned_eq hnumber]

namespace Value

variable {v w : Value}

/-! ## What values are compared by -/

/-- What the language compares: everything but a real that is no number, and but a list, which no
text of a program can give. -/
def IsComparable : Value → Prop
  | real x => x.isNaN = false
  | list _ => False
  | _ => True

/-- What is compared of a value. -/
inductive Identity where
  | undefined
  | int (n : Int)
  | real (x : UnpackedFloat)
  | text (s : String)
  | bool (b : Bool)
  | list (items : List Json)
  | array (address : Nat)
  | routine (id : Nat)
  | builtin (id : Nat)

/-- The content of a scalar, and which array, routine or builtin it is. -/
def identity : Value → Identity
  | undefined => .undefined
  | int n => .int n
  | real x => .real (unsigned x.toModel.unpack)
  | text s => .text s
  | bool b => .bool b
  | list items => .list items
  | array a => .array a
  | routine id _ => .routine id
  | builtin id _ => .builtin id

theorem equal_iff_identity (hv : v.IsComparable) : v.equal w = true ↔ v.identity = w.identity := by
  cases v with
  | real x =>
    cases w with
    | real y => simp only [equal, identity, Identity.real.injEq, beq_iff_unsigned_eq hv]
    | _ => simp [equal, identity]
  | list items => exact absurd hv id
  | _ => cases w <;> simp [equal, identity]

/-- Equality is an equivalence of what the language compares. -/
theorem equivalence_equal :
    Equivalence fun v w : {v : Value // v.IsComparable} => v.1.equal w.1 = true where
  refl v := (equal_iff_identity v.2).2 rfl
  symm {v w} h := (equal_iff_identity w.2).2 ((equal_iff_identity v.2).1 h).symm
  trans {v w _} h h' :=
    (equal_iff_identity v.2).2
      (((equal_iff_identity v.2).1 h).trans ((equal_iff_identity w.2).1 h'))

/-! ## Variants -/

/-- The variants of values. Arrays with one extent and with two are different ones. -/
inductive Variant where
  | undefined
  | int
  | real
  | text
  | bool
  | list
  | line
  | grid
  /-- An array that is not in the heap. -/
  | nowhere
  | routine
  | builtin
  deriving DecidableEq

/-- The variant of an array in the heap. -/
def arrayVariant : Option ArrayObject → Variant
  | some (.line ..) => .line
  | some (.grid ..) => .grid
  | none => .nowhere

def variant (heap : Heap) : Value → Variant
  | undefined => .undefined
  | int _ => .int
  | real _ => .real
  | text _ => .text
  | bool _ => .bool
  | list _ => .list
  | array a => arrayVariant heap[a]?
  | routine .. => .routine
  | builtin .. => .builtin

/-- Equal values have one variant, in every heap. -/
theorem variant_eq_of_equal (heap : Heap) (h : v.equal w = true) :
    v.variant heap = w.variant heap := by
  cases v with
  | array a =>
    cases w with
    | array b =>
      have hab : a = b := by simpa only [equal, beq_iff_eq] using h
      rw [hab]
    | _ => cases h
  | _ => cases w <;> first | rfl | cases h

end Value

end MiniAlgol
