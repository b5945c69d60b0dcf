import MiniAlgol.Proofs.Except
import MiniAlgol.Store
import Mathlib.Logic.Relation

/-!
# The elements of arrays

What reading, storing and allocating do to the elements of an array and to its shape, and how a
heap can change: addresses are only added, and the element type and the extents of an array stay
as they were made (`Heap.Grows`).

`Heap.Holds` is the edge relation of the heap as a graph, which may have cycles, since any value
can be stored in any element.
-/

namespace MiniAlgol

namespace ArrayObject

/-- The elements, row by row. -/
def elements : ArrayObject → List Value
  | line _ items => items.toList
  | grid _ _ _ cells => cells.toList.flatMap Array.toList

/-- Whether a position lies within the extents. -/
def InRange (x : ArrayObject) (i j : Int) : Prop :=
  0 ≤ i ∧ i < x.extents.1 ∧ 0 ≤ j ∧ j < x.extents.2

/-- Arrays of one shape with related elements. -/
inductive Like (R : Value → Value → Prop) : ArrayObject → ArrayObject → Prop where
  | line {elem : Tag} {items items' : Array Value}
      (h : List.Forall₂ R items.toList items'.toList) : Like R (line elem items) (line elem items')
  | grid {elem : Tag} {rows cols : Int} {cells cells' : Array (Array Value)}
      (h : List.Forall₂ (fun row row' => List.Forall₂ R row.toList row'.toList)
        cells.toList cells'.toList) :
      Like R (grid elem rows cols cells) (grid elem rows cols cells')

theorem Like.self {R : Value → Value → Prop} {x : ArrayObject} (h : ∀ v ∈ x.elements, R v v) :
    Like R x x := by
  cases x with
  | line elem items => exact .line (List.forall₂_same.2 h)
  | grid elem rows cols cells =>
    refine .grid (List.forall₂_same.2 fun row hrow => List.forall₂_same.2 fun v hv => ?_)
    exact h v (List.mem_flatMap.2 ⟨row, hrow, hv⟩)

theorem exists_of_forall₂_mem {α β : Type} {R : α → β → Prop} {l : List α} {l' : List β} {a : α}
    (h : List.Forall₂ R l l') (ha : a ∈ l) : ∃ b, R a b := by
  induction h with
  | nil => cases ha
  | cons hab _ ih =>
    rcases List.mem_cons.1 ha with rfl | ha
    · exact ⟨_, hab⟩
    · exact ih ha

theorem Like.exists_of_mem {R : Value → Value → Prop} {x x' : ArrayObject} {v : Value}
    (h : Like R x x') (hv : v ∈ x.elements) : ∃ v', R v v' := by
  cases h with
  | line h => exact exists_of_forall₂_mem h hv
  | grid h =>
    obtain ⟨row, hrow, hv⟩ := List.mem_flatMap.1 hv
    obtain ⟨row', hlike⟩ := exists_of_forall₂_mem h hrow
    exact exists_of_forall₂_mem hlike hv

theorem get_mem {x : ArrayObject} {i j : Int} {v : Value} (h : x.get i j = .ok v) :
    v ∈ x.elements := by
  cases x with
  | line elem items =>
    obtain ⟨k, -, h⟩ := bind_ok h
    cases h
    simp [elements]
  | grid elem rows cols cells =>
    obtain ⟨k, -, h⟩ := bind_ok h
    obtain ⟨l, -, h⟩ := bind_ok h
    cases h
    simp only [elements, List.mem_flatMap]
    exact ⟨cells[k], by simp, by simp⟩

/-- Storing an element adds nothing but that element. -/
theorem mem_of_mem_put {x x' : ArrayObject} {i j : Int} {v u : Value} (h : x.put i j v = .ok x')
    (hu : u ∈ x'.elements) : u = v ∨ u ∈ x.elements := by
  cases x with
  | line elem items =>
    obtain ⟨k, -, h⟩ := bind_ok h
    cases h
    simp only [elements, Array.mem_toList_iff] at hu ⊢
    rcases Array.mem_or_eq_of_mem_set hu with hu | hu
    · exact .inr hu
    · exact .inl hu
  | grid elem rows cols cells =>
    obtain ⟨k, -, h⟩ := bind_ok h
    obtain ⟨l, -, h⟩ := bind_ok h
    cases h
    simp only [elements, List.mem_flatMap, Array.mem_toList_iff] at hu ⊢
    obtain ⟨row, hrow, hu⟩ := hu
    obtain ⟨n, hn, rfl⟩ := Array.mem_iff_getElem.1 hrow
    rw [Array.getElem_modify] at hu
    split at hu
    · rw [Array.setIfInBounds_def] at hu
      split at hu
      · rcases Array.mem_or_eq_of_mem_set hu with hu | hu
        · exact .inr ⟨_, Array.getElem_mem _, hu⟩
        · exact .inl hu
      · exact .inr ⟨_, Array.getElem_mem _, hu⟩
    · exact .inr ⟨_, Array.getElem_mem _, hu⟩

/-- A new array holds nothing. -/
theorem eq_undefined_of_mem_allocate {elem : Tag} {extents : List Int} {x : ArrayObject}
    {v : Value} (h : allocate elem extents = .ok x) (hv : v ∈ x.elements) : v = .undefined := by
  unfold allocate at h
  split at h
  · split at h
    · cases h
      simp only [elements, undefinedCells, Array.toList_replicate] at hv
      exact List.eq_of_mem_replicate hv
    · cases h
  · split at h
    · cases h
      simp [elements] at hv
    · split at h
      · cases h
        simp only [elements, undefinedCells, Array.toList_replicate, List.mem_flatMap] at hv
        obtain ⟨row, hrow, hv⟩ := hv
        rw [List.eq_of_mem_replicate hrow, Array.toList_replicate] at hv
        exact List.eq_of_mem_replicate hv
      · cases h
  · cases h

end ArrayObject

namespace Heap

/-- Every array is still there with its element type and its extents. -/
def Grows (h h' : Heap) : Prop :=
  ∀ (a : Nat) x, h[a]? = some x → ∃ x', h'[a]? = some x' ∧ x'.elem = x.elem ∧
    x'.extents = x.extents

theorem Grows.refl (h : Heap) : Grows h h :=
  fun _ x hx => ⟨x, hx, rfl, rfl⟩

theorem Grows.trans {h₁ h₂ h₃ : Heap} (h₁₂ : Grows h₁ h₂) (h₂₃ : Grows h₂ h₃) : Grows h₁ h₃ := by
  intro a x hx
  obtain ⟨y, hy, helem, hext⟩ := h₁₂ a x hx
  obtain ⟨z, hz, helem', hext'⟩ := h₂₃ a y hy
  exact ⟨z, hz, helem'.trans helem, hext'.trans hext⟩

theorem Grows.size_le {h h' : Heap} (hg : Grows h h') : h.size ≤ h'.size := by
  rcases Nat.eq_zero_or_pos h.size with hz | hp
  · omega
  · have hlt : h.size - 1 < h.size := by omega
    obtain ⟨y, hy, -⟩ := hg (h.size - 1) h[h.size - 1] (Array.getElem?_eq_getElem hlt)
    have := (Array.getElem?_eq_some_iff.1 hy).1
    omega

theorem Grows.push (h : Heap) (x : ArrayObject) : Grows h (h.push x) := by
  intro a y hy
  have hlt := (Array.getElem?_eq_some_iff.1 hy).1
  refine ⟨y, ?_, rfl, rfl⟩
  rw [Array.getElem?_push, if_neg (by omega), hy]

theorem getElem?_set {h : Heap} {a b : Nat} {x x' : ArrayObject} (hx : h[a]? = some x) :
    (h.setIfInBounds a x')[b]? = if b = a then some x' else h[b]? := by
  have hlt := (Array.getElem?_eq_some_iff.1 hx).1
  rw [Array.getElem?_setIfInBounds]
  grind

theorem Grows.set {h : Heap} {a : Nat} {x x' : ArrayObject} {i j : Int} {v : Value}
    (hx : h[a]? = some x) (hput : x.put i j v = .ok x') : Grows h (h.setIfInBounds a x') := by
  intro b y hy
  rw [getElem?_set hx]
  split
  · rename_i hba
    rw [hba, hx] at hy
    cases hy
    obtain ⟨helem, hext⟩ := ArrayObject.shape_put hput
    exact ⟨x', rfl, helem, hext⟩
  · exact ⟨y, hy, rfl, rfl⟩

/-- What is true of the elements in a heap is true of them with a new array, which holds nothing. -/
theorem elements_push {P : Nat → Tag → Value → Prop} {h : Heap} {x : ArrayObject} {elem : Tag}
    {extents : List Int}
    (hh : ∀ {a y v}, h[a]? = some y → v ∈ y.elements → P a y.elem v)
    (hx : ArrayObject.allocate elem extents = .ok x) (hnew : ∀ a tag, P a tag .undefined)
    {a : Nat} {y : ArrayObject} {v : Value} (hy : (h.push x)[a]? = some y) (hv : v ∈ y.elements) :
    P a y.elem v := by
  rw [Array.getElem?_push] at hy
  split at hy
  · cases hy
    rw [ArrayObject.eq_undefined_of_mem_allocate hx hv]
    exact hnew a _
  · exact hh hy hv

/-- It stays true when it is true of an element that is stored. -/
theorem elements_put {P : Nat → Tag → Value → Prop} {h : Heap} {a : Nat} {x x' : ArrayObject}
    {i j : Int} {v : Value} (hh : ∀ {b y u}, h[b]? = some y → u ∈ y.elements → P b y.elem u)
    (hx : h[a]? = some x) (hv : P a x.elem v) (hput : x.put i j v = .ok x') {b : Nat}
    {y : ArrayObject} {u : Value} (hy : (h.setIfInBounds a x')[b]? = some y)
    (hu : u ∈ y.elements) : P b y.elem u := by
  rw [getElem?_set hx] at hy
  split at hy
  · rename_i hba
    cases hy
    rw [(ArrayObject.shape_put hput).1, hba]
    rcases ArrayObject.mem_of_mem_put hput hu with rfl | hu
    · exact hv
    · exact hh hx hu
  · exact hh hy hu

/-- An element of the first array is the second one. -/
def Holds (h : Heap) (a b : Nat) : Prop :=
  ∃ x, h[a]? = some x ∧ Value.array b ∈ x.elements

/-- An array among the values, or one in an element of such an array, at any depth. -/
def Reaches (h : Heap) (vs : List Value) (b : Nat) : Prop :=
  ∃ a, Value.array a ∈ vs ∧ Relation.ReflTransGen (Holds h) a b

theorem Reaches.element {h : Heap} {vs : List Value} {a b : Nat} {x : ArrayObject}
    (ha : h.Reaches vs a) (hx : h[a]? = some x) (hb : Value.array b ∈ x.elements) :
    h.Reaches vs b := by
  obtain ⟨root, hroot, hpath⟩ := ha
  exact ⟨root, hroot, hpath.tail ⟨x, hx, hb⟩⟩

/-- A set of addresses with the values and with what is held in its arrays has all that can be
reached from the values. -/
theorem Reaches.induction {h : Heap} {vs : List Value} {p : Nat → Prop}
    (hroot : ∀ a, Value.array a ∈ vs → p a) (hstep : ∀ a b, p a → Holds h a b → p b) {b : Nat}
    (hb : h.Reaches vs b) : p b := by
  obtain ⟨a, ha, hpath⟩ := hb
  induction hpath with
  | refl => exact hroot a ha
  | tail _ hab ih => exact hstep _ _ ih hab

end Heap

end MiniAlgol
