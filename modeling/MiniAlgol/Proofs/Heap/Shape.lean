import MiniAlgol.Proofs.Heap.Store

/-!
# The shape of an array

An array has the shape of its declaration when it has the declared element type and as many
elements as its extents say (`HasShape`), where a negative extent counts as zero. Allocating gives
the shape and storing keeps it. Extents are recorded apart from the elements, so that a position
within them has an element is a consequence: `read_of_locate` and `write_of_locate` say so of the
positions that indices address, and that storing there changes that one element.
-/

namespace MiniAlgol

namespace ArrayObject

variable {x x' : ArrayObject} {i j k l : Int} {v : Value} {elem : Tag} {extents : List Int}

/-- The array has this element type, and an element for every position within these extents. -/
inductive HasShape : ArrayObject → Tag → List Int → Prop where
  | line {elem : Tag} {length : Int} {items : Array Value} (hitems : items.size = max length 0) :
    HasShape (line elem items) elem [length]
  | grid {elem : Tag} {rows cols : Int} {cells : Array (Array Value)}
      (hcells : cells.size = max rows 0) (hrows : ∀ row ∈ cells, row.size = max cols 0) :
    HasShape (grid elem rows cols cells) elem [rows, cols]

theorem HasShape.shaped (hx : x.HasShape elem extents) : x.Shaped := by
  cases hx with
  | line => trivial
  | grid hcells hrows =>
    refine ⟨by omega, fun row hrow => ?_⟩
    have hsize := hrows row hrow
    omega

theorem HasShape.elem_eq (hx : x.HasShape elem extents) : x.elem = elem := by
  cases hx <;> rfl

theorem hasShape_allocate (h : allocate elem extents = .ok x) : x.HasShape elem extents := by
  have hcells : ∀ n : Int, ((undefinedCells n).size : Int) = max n 0 := by
    intro n
    rw [undefinedCells, Array.size_replicate]
    omega
  unfold allocate at h
  split at h
  · split at h
    · cases h
      exact .line (hcells _)
    · cases h
  · rename_i rows cols
    split at h
    · cases h
      refine .grid ?_ (by simp)
      simp only [List.size_toArray, List.length_nil]
      omega
    · split at h
      · cases h
        refine .grid ?_ fun row hrow => ?_
        · rw [Array.size_replicate]
          omega
        · rw [Array.eq_of_mem_replicate hrow]
          exact hcells cols
      · cases h
  · cases h

theorem HasShape.put (hx : x.HasShape elem extents) (h : x.put i j v = .ok x') :
    x'.HasShape elem extents := by
  cases hx with
  | line hitems =>
    obtain ⟨k, -, h⟩ := bind_ok h
    cases h
    refine .line ?_
    rw [Array.size_set]
    exact hitems
  | grid hcells hrows =>
    obtain ⟨k, -, h⟩ := bind_ok h
    obtain ⟨l, -, h⟩ := bind_ok h
    cases h
    refine .grid ?_ fun row hrow => ?_
    · rw [Array.size_modify]
      exact hcells
    · obtain ⟨n, hn, rfl⟩ := Array.mem_iff_getElem.1 hrow
      rw [Array.getElem_modify]
      split
      · rw [Array.size_setIfInBounds]
        exact hrows _ (Array.getElem_mem _)
      · exact hrows _ (Array.getElem_mem _)

/-! ## Reading after storing -/

/-- The element in a row and a column. -/
def element? : ArrayObject → Nat → Nat → Option Value
  | line _ items, i, _ => items[i]?
  | grid _ _ _ cells, i, j => do (← cells[i]?)[j]?

theorem placeOf_eq (missing : Fault) {length : Nat} (hi : 0 ≤ i) (hlt : i < length) :
    placeOf missing length i = .ok ⟨i.toNat, by omega⟩ := by
  simp only [placeOf, wrapIndex, if_neg (Int.not_lt.2 hi), dif_pos (And.intro hi hlt)]

/-- A position within the extents is a row and a place in that row. -/
theorem Shaped.lt_size {rows cols : Int} {cells : Array (Array Value)}
    (hx : (grid elem rows cols cells).Shaped) (hr : (grid elem rows cols cells).InRange i j) :
    ∃ hlt : i.toNat < cells.size, i < cells.size ∧ j < cells[i.toNat].size := by
  obtain ⟨hi, hilt, hj, hjlt⟩ := hr
  obtain ⟨hrows, hcols⟩ := hx
  simp only [ArrayObject.extents] at hilt hjlt
  have hlt : i.toNat < cells.size := by omega
  have hsize := hcols cells[i.toNat] (Array.getElem_mem hlt)
  exact ⟨hlt, by omega, by omega⟩

/-- Reading gives the element that is there. -/
theorem Shaped.get_eq (hx : x.Shaped) (hr : x.InRange i j) :
    ∃ v, x.element? i.toNat j.toNat = some v ∧ x.get i j = .ok v := by
  have ⟨hi, hilt, hj, hjlt⟩ := hr
  cases x with
  | line elem items =>
    have hlt : i.toNat < items.size := by
      simp only [ArrayObject.extents] at hilt
      omega
    refine ⟨items[i.toNat], Array.getElem?_eq_getElem hlt, ?_⟩
    simp only [get, placeOf_eq .noElement hi hilt, ok_bind]
    rfl
  | grid elem rows cols cells =>
    obtain ⟨hlt, hrow, hcol⟩ := hx.lt_size hr
    refine ⟨cells[i.toNat][j.toNat], ?_, ?_⟩
    · simp [element?, hlt]
    · simp only [get, placeOf_eq .noElement hi hrow, ok_bind, placeOf_eq .noElement hj hcol]
      rfl

theorem Shaped.element?_put (hx : x.Shaped) (hr : x.InRange i j) (h : x.put i j v = .ok x')
    (hkl : x.InRange k l) : x'.element? k.toNat l.toNat =
      if k = i ∧ l = j then some v else x.element? k.toNat l.toNat := by
  have ⟨hi, hilt, hj, hjlt⟩ := hr
  obtain ⟨hk, hklt, hl, hllt⟩ := hkl
  cases x with
  | line elem items =>
    simp only [ArrayObject.extents] at hilt hjlt hklt hllt
    simp only [ArrayObject.put, placeOf_eq _ hi hilt, ok_bind] at h
    cases h
    -- there is one column
    have hcol : l = j := by omega
    simp only [element?, Array.getElem?_set, hcol, and_true]
    grind
  | grid elem rows cols cells =>
    obtain ⟨hlt, hrow, hcol⟩ := hx.lt_size hr
    simp only [ArrayObject.put, placeOf_eq _ hi hrow, ok_bind, placeOf_eq _ hj hcol] at h
    cases h
    simp only [element?, Array.getElem?_modify]
    by_cases hki : k = i
    · -- in the row that was stored to
      subst hki
      simp only [hlt, Array.getElem?_eq_getElem, ↓reduceIte, Option.map_some,
        Option.bind_eq_bind, Option.bind_some, Array.getElem?_setIfInBounds, true_and]
      grind
    · rw [if_neg (by omega), if_neg (by omega)]

/-- Storing changes the element at its position and no other. -/
theorem Shaped.get_put (hx : x.Shaped) (hr : x.InRange i j) (h : x.put i j v = .ok x')
    (hkl : x.InRange k l) : x'.get k l = if k = i ∧ l = j then .ok v else x.get k l := by
  have hkl' : x'.InRange k l := by
    rw [InRange, (shape_put h).2]
    exact hkl
  obtain ⟨u, hu, hget⟩ := hx.get_eq hkl
  obtain ⟨u', hu', hget'⟩ := (hx.put h).get_eq hkl'
  rw [hx.element?_put hr h hkl, hu] at hu'
  rw [hget, hget']
  split
  · rw [if_pos ‹_›] at hu'
    cases hu'
    rfl
  · rw [if_neg ‹_›] at hu'
    cases hu'
    rfl

end ArrayObject

namespace Heap

variable {heap : Heap} {name : Label} {t v : Value} {is : List Value} {a : Nat} {x : ArrayObject}
  {i j : Int}

/-- What indices address in an array that has its elements in place can be read. -/
theorem read_of_locate (hx : x.Shaped) (h : locate heap name t is = .ok (a, x, i, j)) :
    ∃ v, read heap name t is = .ok v := by
  obtain ⟨-, -, hr⟩ := locate_ok h
  obtain ⟨v, hv⟩ := hx.exists_get hr
  refine ⟨v, ?_⟩
  rw [read, h]
  exact hv

/-- It can be stored to as well, and that changes this element only. -/
theorem write_of_locate (hx : x.Shaped) (h : locate heap name t is = .ok (a, x, i, j))
    (v : Value) : ∃ x', write heap name t is v = .ok (heap.setIfInBounds a x') ∧
      ∀ k l, x.InRange k l → x'.get k l = if k = i ∧ l = j then .ok v else x.get k l := by
  obtain ⟨-, -, hr⟩ := locate_ok h
  obtain ⟨x', hput⟩ := hx.exists_put hr v
  refine ⟨x', ?_, fun k l hkl => hx.get_put hr hput hkl⟩
  rw [write, h, ok_bind]
  simp only [hput, ok_bind]
  rfl

end Heap

end MiniAlgol
