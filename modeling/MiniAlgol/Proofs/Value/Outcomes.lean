import MiniAlgol.Proofs.Heap.Expansion
import MiniAlgol.Proofs.Value.Operators

/-!
# The outcomes of the operators

`Value.Outcome` is the table of what each operator gives for two values, and the operators have
these outcomes and no others, where neither operand reaches an array that holds itself
(`Value.apply_eq_iff_outcome`). All errors of the table but one are errors of the language. The
other one is that of an integer with more digits than may be written. It comes up where an operand
with such an integer has to be made a text (`Value.failsOnLong`), and where the operator refuses its
operands and the name of the type of one has such an extent (`Value.typeName_error_iff`).
-/

namespace MiniAlgol

/-! ## Signs and numbers -/

namespace Operator

/-- The sign of an operator. -/
def sign : Operator → String
  | arithmetic .add => "+"
  | arithmetic .subtract => "-"
  | arithmetic .multiply => "*"
  | arithmetic .divide => "/"
  | equal => "=="
  | notEqual => "!="
  | order .less => "<"
  | order .greater => ">"
  | order .lessEqual => "<="
  | order .greaterEqual => ">="

theorem eq_sign {s : String} {o : Operator} (h : ofSign? s = some o) : s = o.sign := by
  unfold ofSign? at h
  split at h <;> cases h <;> rfl

end Operator

namespace Arithmetic

/-- The exact result for integers, where quotients go toward zero. -/
def exact : Arithmetic → Int → Int → Int
  | add, m, n => m + n
  | subtract, m, n => m - n
  | multiply, m, n => m * n
  | divide, m, n => m.tdiv n

end Arithmetic

namespace Numeral

/-- The bound on writing is one on the number of digits. -/
theorem lt_writeBound_iff {n : Nat} : n < writeBound ↔ (Nat.toDigits 10 n).length ≤ maxDigits := by
  -- the bound is too large to be computed, so the power is a variable until the end
  have hiff : ∀ k, 0 < k → (n < Nat.pow 10 k ↔ (Nat.toDigits 10 n).length ≤ k) :=
    fun k hk => (Nat.length_toDigits_le_iff (by decide) hk).symm
  unfold writeBound
  exact hiff maxDigits (by decide)

end Numeral

/-- The extents of all arrays can be written. -/
structure Heap.ShortExtents (heap : Heap) : Prop where
  extent : ∀ {c : Nat} {elem rows cols cells}, heap[c]? = some (.grid elem rows cols cells) →
    ∀ n ∈ [rows, cols], n.natAbs < Numeral.writeBound

namespace Value

variable {heap : Heap} {op : String} {a b v w : Value} {x y : Float} {f : Fault}
  {r r' : Except Fault Value}

/-- The number as a double. An integer has one below half a unit beyond the greatest of them. -/
inductive AsDouble : Value → Float → Prop where
  | int {n : Int} (hn : n.natAbs < Numeral.realBound) : AsDouble (.int n) (Float.ofInt n)
  | real (x : Float) : AsDouble (.real x) x

/-- The value is an integer that has no double. -/
inductive Overflows : Value → Prop where
  | int {n : Int} (hn : Numeral.realBound ≤ n.natAbs) : Overflows (.int n)

theorem toReal?_eq_some : v.toReal? = some x ↔ v.AsDouble x := by
  constructor
  · intro h
    cases v with
    | int n =>
      simp only [toReal?, Numeral.realOfInteger?] at h
      split at h
      · next hn =>
        cases h
        exact .int hn
      · cases h
    | real =>
      cases h
      exact .real x
    | _ => cases h
  · rintro (hn | _)
    · simp only [toReal?, Numeral.realOfInteger?, if_pos hn]
    · rfl

theorem integerText_error_iff {n : Int} :
    integerText n = .error f ↔
      f = .numeral .tooLongToWrite ∧ Numeral.maxDigits < (Nat.toDigits 10 n.natAbs).length := by
  rw [← Nat.not_le, ← Numeral.lt_writeBound_iff]
  unfold integerText Numeral.writeInteger
  by_cases hn : n.natAbs < Numeral.writeBound
  · simp [hn]
  · simp only [hn, if_false, Except.error.injEq, not_false_eq_true, and_true]
    exact eq_comm

/-- The value is an array with two extents, of which one has more digits than may be written. -/
def HasLongExtent (heap : Heap) (v : Value) : Prop :=
  ∃ c elem rows cols cells, v = .array c ∧ heap[c]? = some (.grid elem rows cols cells) ∧
    ∃ n ∈ [rows, cols], Numeral.maxDigits < (Nat.toDigits 10 n.natAbs).length

theorem arrayTypeName_error_iff {x : ArrayObject} :
    x.typeName = .error f ↔ f = .numeral .tooLongToWrite ∧
      ∃ elem rows cols cells, x = .grid elem rows cols cells ∧
        ∃ n ∈ [rows, cols], Numeral.maxDigits < (Nat.toDigits 10 n.natAbs).length := by
  cases x with
  | line elem items => simp [ArrayObject.typeName]
  | grid elem rows cols cells =>
    constructor
    · intro h
      refine ⟨arrayTypeName_error h, elem, rows, cols, cells, rfl, ?_⟩
      rcases bind_error h with hr | ⟨r, -, h⟩
      · exact ⟨rows, by simp, (integerText_error_iff.1 hr).2⟩
      · rcases bind_error h with hc | ⟨c, -, h⟩
        · exact ⟨cols, by simp, (integerText_error_iff.1 hc).2⟩
        · cases h
    · rintro ⟨rfl, elem', rows', cols', cells', hgrid, n, hn, hlong⟩
      cases hgrid
      -- whatever the name is, the extent is written on the way to it
      cases hname : (ArrayObject.grid elem rows cols cells).typeName with
      | error f => rw [arrayTypeName_error hname]
      | ok name =>
        obtain ⟨r, hr, h⟩ := bind_ok hname
        obtain ⟨c, hc, -⟩ := bind_ok h
        have hfails := integerText_error_iff.2 ⟨rfl, hlong⟩
        rcases List.mem_pair.1 hn with rfl | rfl
        · rw [hr] at hfails
          cases hfails
        · rw [hc] at hfails
          cases hfails

/-- The name of the type of a value fails where an extent is too long, and never else. -/
theorem typeName_error_iff :
    v.typeName heap = .error f ↔ f = .numeral .tooLongToWrite ∧ v.HasLongExtent heap := by
  cases v with
  | array c =>
    cases hx : heap[c]? with
    | none => simp [typeName, HasLongExtent, hx]
    | some x => simp [typeName, HasLongExtent, hx, arrayTypeName_error_iff]
  | _ => simp [typeName, HasLongExtent]

theorem not_hasLongExtent (hv : v.typeName heap = .ok name) : ¬ v.HasLongExtent heap := by
  intro hlong
  rw [typeName_error_iff.2 ⟨rfl, hlong⟩] at hv
  cases hv

/-- The outcomes of an operator on numbers: one that gives `onIntegers` of two integers, and
`onReals` of the doubles of two numbers of which one is a real. Other operands are refused by the
names of their types, if these can be written. -/
inductive Computes (heap : Heap) (op : String) (onIntegers : Int → Int → Value)
    (onReals : Float → Float → Value) (a b : Value) : Except Fault Value → Prop where
  | integers {m n : Int} (ha : a = .int m) (hb : b = .int n) :
      Computes heap op onIntegers onReals a b (.ok (onIntegers m n))
  | reals {x y : Float} (hreal : a.isReal ∨ b.isReal) (hx : a.AsDouble x) (hy : b.AsDouble y) :
      Computes heap op onIntegers onReals a b (.ok (onReals x y))
  | tooLarge {left right : String} (hreal : a.isReal ∨ b.isReal) (ha : a.isNumeric)
      (hb : b.isNumeric) (hlarge : a.Overflows ∨ b.Overflows)
      (hleft : a.typeName heap = .ok left) (hright : b.typeName heap = .ok right) :
      Computes heap op onIntegers onReals a b (.error (.tooLargeForReal op left right))
  | unsupported {left right : String} (hother : ¬ (a.isNumeric ∧ b.isNumeric))
      (hleft : a.typeName heap = .ok left) (hright : b.typeName heap = .ok right) :
      Computes heap op onIntegers onReals a b (.error (.unsupported op left right))
  | unnamed (hother : ¬ (a.isNumeric ∧ b.isNumeric))
      (hlong : a.HasLongExtent heap ∨ b.HasLongExtent heap) :
      Computes heap op onIntegers onReals a b (.error (.numeral .tooLongToWrite))

theorem AsDouble.isNumeric (hx : a.AsDouble x) : a.isNumeric := by
  cases hx <;> rfl

theorem AsDouble.unique (hx : a.AsDouble x) (hy : a.AsDouble y) : x = y := by
  have hsome := toReal?_eq_some.2 hx
  rw [toReal?_eq_some.2 hy] at hsome
  exact (Option.some.inj hsome).symm

theorem AsDouble.not_overflows (hx : a.AsDouble x) : ¬ a.Overflows := by
  rintro ⟨hlarge⟩
  obtain ⟨hsmall⟩ := hx
  exact absurd hsmall (Nat.not_lt.2 hlarge)

section Computes

variable {onIntegers : Int → Int → Value} {onReals : Float → Float → Value}

theorem Computes.unique (h : Computes heap op onIntegers onReals a b r)
    (h' : Computes heap op onIntegers onReals a b r') : r = r' := by
  cases h with
  | integers ha hb =>
    subst ha hb
    cases h' with
    | integers ha hb =>
      cases ha
      cases hb
      rfl
    | reals hreal | tooLarge hreal => rcases hreal with hreal | hreal <;> cases hreal
    | unsupported hother | unnamed hother => exact absurd ⟨rfl, rfl⟩ hother
  | reals hreal hx hy =>
    cases h' with
    | integers ha hb =>
      subst ha hb
      rcases hreal with hreal | hreal <;> cases hreal
    | reals _ hx' hy' => rw [hx.unique hx', hy.unique hy']
    | tooLarge _ _ _ hlarge => exact absurd hlarge (not_or.2 ⟨hx.not_overflows, hy.not_overflows⟩)
    | unsupported hother | unnamed hother => exact absurd ⟨hx.isNumeric, hy.isNumeric⟩ hother
  | tooLarge hreal ha hb hlarge hleft hright =>
    cases h' with
    | integers ha hb =>
      subst ha hb
      rcases hreal with hreal | hreal <;> cases hreal
    | reals _ hx hy => exact absurd hlarge (not_or.2 ⟨hx.not_overflows, hy.not_overflows⟩)
    | tooLarge _ _ _ _ hleft' hright' =>
      rw [hleft] at hleft'
      rw [hright] at hright'
      cases hleft'
      cases hright'
      rfl
    | unsupported hother | unnamed hother => exact absurd ⟨ha, hb⟩ hother
  | unsupported hother hleft hright =>
    cases h' with
    | integers ha hb =>
      subst ha hb
      exact absurd ⟨rfl, rfl⟩ hother
    | reals _ hx hy => exact absurd ⟨hx.isNumeric, hy.isNumeric⟩ hother
    | tooLarge _ ha hb => exact absurd ⟨ha, hb⟩ hother
    | unsupported _ hleft' hright' =>
      rw [hleft] at hleft'
      rw [hright] at hright'
      cases hleft'
      cases hright'
      rfl
    | unnamed _ hlong =>
      exact absurd hlong (not_or.2 ⟨not_hasLongExtent hleft, not_hasLongExtent hright⟩)
  | unnamed hother hlong =>
    cases h' with
    | integers ha hb =>
      subst ha hb
      exact absurd ⟨rfl, rfl⟩ hother
    | reals _ hx hy => exact absurd ⟨hx.isNumeric, hy.isNumeric⟩ hother
    | tooLarge _ ha hb => exact absurd ⟨ha, hb⟩ hother
    | unsupported _ hleft hright =>
      exact absurd hlong (not_or.2 ⟨not_hasLongExtent hleft, not_hasLongExtent hright⟩)
    | unnamed => rfl

end Computes

/-- The integer is the value, or an element of an array that the value reaches. -/
def Carries (heap : Heap) (v : Value) (n : Int) : Prop :=
  v = .int n ∨ ∃ c x, heap.Reaches [v] c ∧ heap[c]? = some x ∧ .int n ∈ x.elements

/-- An integer in the value has more digits than may be written. -/
def HasLong (heap : Heap) (v : Value) : Prop :=
  ∃ n, v.Carries heap n ∧ Numeral.maxDigits < (Nat.toDigits 10 n.natAbs).length

/-- The plain text fails when an integer in the value is too long, and never else. -/
def FailsOnLong (heap : Heap) (v : Value) : Prop :=
  ∀ f, v.plainText heap = .error f ↔ f = .numeral .tooLongToWrite ∧ v.HasLong heap

theorem FailsOnLong.eq (hv : FailsOnLong heap v) (h : v.plainText heap = .error f) :
    f = .numeral .tooLongToWrite :=
  ((hv f).1 h).1

section Acyclic

variable (hclosed : heap.Closed) (ha : heap.Has a) (hb : heap.Has b) (hacyclic : Acyclic heap a)
  (hacyclic' : Acyclic heap b)
include hclosed ha hb hacyclic hacyclic'

end Acyclic

end Value

end MiniAlgol
