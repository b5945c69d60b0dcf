import MiniAlgol.Proofs.Heap.Shape

/-!
# Arrays that are filled column after column

`ArrayObject.filled` is an array of a given shape with elements from a list, column after column,
and undefined ones after them. An array starts as the one filled with nothing (`filled_nil`), and
storing the next initial element fills it with one more (`HasShape.fill_filled`): the positions
within the extents and the indices below the capacity correspond one to one
(`existsUnique_position`), so an element is stored where none was before.
-/

namespace MiniAlgol

namespace ArrayObject

variable {x y : ArrayObject} {elem : Tag} {extents : List Int} {values : List Value} {i j : Int}

/-! ## Positions and indices -/

/-- The index that an initializer fills a position with is that of its row, after the elements of
the columns before. -/
theorem index_eq_iff {rows index : Int} (hi : 0 ≤ i) (hlt : i < rows) :
    i + j * rows = index ↔ i = Int.fmod index rows ∧ j = Int.fdiv index rows := by
  have hrows : 0 ≤ rows := by omega
  rw [Int.fmod_eq_emod_of_nonneg index hrows, Int.fdiv_eq_ediv_of_nonneg index hrows]
  constructor
  · rintro rfl
    rw [Int.add_mul_emod_self_right, Int.add_mul_ediv_right _ _ (by omega),
      Int.emod_eq_of_lt hi hlt, Int.ediv_eq_zero_of_lt hi hlt]
    omega
  · rintro ⟨rfl, rfl⟩
    rw [Int.mul_comm]
    exact Int.emod_add_mul_ediv index rows

/-- There is one position for each index that the array has room for. -/
theorem existsUnique_position {index : Int} (hrows : 0 ≤ x.extents.1) (hindex : 0 ≤ index)
    (hlt : index < x.capacity) :
    ∃! p : Int × Int, x.InRange p.1 p.2 ∧ p.1 + p.2 * x.extents.1 = index := by
  obtain ⟨i, j, hp, hr⟩ := fillPosition_inRange hrows hindex hlt
  have hne : x.extents.1 ≠ 0 := by
    obtain ⟨hi, hilt, -⟩ := hr
    omega
  rw [fillPosition, if_neg hne] at hp
  cases hp
  refine ⟨(_, _), ⟨hr, (index_eq_iff hr.1 hr.2.1).2 ⟨rfl, rfl⟩⟩, ?_⟩
  rintro ⟨k, l⟩ ⟨hkl, hindex⟩
  obtain ⟨rfl, rfl⟩ := (index_eq_iff hkl.1 hkl.2.1).1 hindex
  rfl

/-! ## Arrays with the same elements -/

/-- An array is known by its shape and its elements. -/
theorem HasShape.ext (hx : x.HasShape elem extents) (hy : y.HasShape elem extents)
    (h : ∀ i j, x.InRange i j → x.get i j = y.get i j) : x = y := by
  have helement : ∀ i j : Nat, x.InRange i j → y.InRange i j →
      x.element? i j = y.element? i j := by
    intro i j hr hr'
    obtain ⟨u, hu, hget⟩ := hx.shaped.get_eq hr
    obtain ⟨u', hu', hget'⟩ := hy.shaped.get_eq hr'
    rw [h i j hr, hget'] at hget
    cases hget
    exact hu.trans hu'.symm
  cases hx with
  | @line _ length items hitems =>
    cases hy with
    | @line _ _ items' hitems' =>
      refine congrArg (ArrayObject.line elem) (Array.ext (by omega) fun i hi hi' => ?_)
      have hi'' := helement i 0 (by simp only [InRange, ArrayObject.extents]; omega)
        (by simp only [InRange, ArrayObject.extents]; omega)
      simpa [element?, hi, hi'] using hi''
  | @grid _ rows cols cells hcells hrows =>
    cases hy with
    | @grid _ _ _ cells' hcells' hrows' =>
      refine congrArg (ArrayObject.grid elem rows cols) (Array.ext (by omega) fun i hi hi' => ?_)
      have hsize := hrows cells[i] (Array.getElem_mem hi)
      have hsize' := hrows' cells'[i] (Array.getElem_mem hi')
      refine Array.ext (by omega) fun j hj hj' => ?_
      have hj'' := helement i j (by simp only [InRange, ArrayObject.extents]; omega)
        (by simp only [InRange, ArrayObject.extents]; omega)
      simpa [element?, hi, hi', hj, hj'] using hj''

/-! ## Filled arrays -/

/-- The array of this shape that has these elements, column after column, and undefined ones
after them. -/
def filled (x : ArrayObject) (values : List Value) : ArrayObject :=
  match x with
  | line elem items => line elem (items.mapIdx fun i _ => values.getD i .undefined)
  | grid elem rows cols cells =>
    grid elem rows cols (cells.mapIdx fun i row =>
      row.mapIdx fun j _ => values.getD (i + j * rows.toNat) .undefined)

@[simp] theorem elem_filled : (x.filled values).elem = x.elem := by
  cases x <;> rfl

@[simp] theorem extents_filled : (x.filled values).extents = x.extents := by
  cases x with
  | line elem items => simp only [filled, ArrayObject.extents, Array.size_mapIdx]
  | grid elem rows cols cells => rfl

theorem inRange_filled : (x.filled values).InRange i j ↔ x.InRange i j := by
  rw [InRange, extents_filled, InRange]

theorem HasShape.filled (hx : x.HasShape elem extents) :
    (x.filled values).HasShape elem extents := by
  cases hx with
  | line hitems => exact .line (by rw [Array.size_mapIdx]; exact hitems)
  | grid hcells hrows =>
    refine .grid (by rw [Array.size_mapIdx]; exact hcells) fun row hrow => ?_
    obtain ⟨i, hi, rfl⟩ := Array.mem_mapIdx.1 hrow
    rw [Array.size_mapIdx]
    exact hrows _ (Array.getElem_mem hi)

/-- Every position has the element with its index. -/
theorem Shaped.get_filled (hx : x.Shaped) (hfilled : (x.filled values).Shaped)
    (hr : x.InRange i j) :
    (x.filled values).get i j = .ok (values.getD (i + j * x.extents.1).toNat .undefined) := by
  obtain ⟨u, hu, hget⟩ := hfilled.get_eq (inRange_filled.2 hr)
  have ⟨hi, hilt, hj, hjlt⟩ := hr
  rw [hget]
  cases x with
  | line elem items =>
    -- there is one column
    simp only [ArrayObject.extents] at hilt hjlt ⊢
    have hcol : j = 0 := by omega
    have hlt : i.toNat < items.size := by omega
    have hu' : values.getD i.toNat .undefined = u := by
      simpa [ArrayObject.filled, element?, hlt] using hu
    rw [hcol, Int.zero_mul, Int.add_zero, hu']
  | grid elem rows cols cells =>
    obtain ⟨hlt, -, hcol⟩ := hx.lt_size hr
    have hcol' : j.toNat < cells[i.toNat].size := by omega
    have hindex : (i + j * rows).toNat = i.toNat + j.toNat * rows.toNat := by
      simp only [ArrayObject.extents] at hilt
      have hmul := Int.mul_nonneg hj (by omega : 0 ≤ rows)
      rw [Int.toNat_add hi hmul, Int.toNat_mul hj (by omega)]
    have hu' : values.getD (i.toNat + j.toNat * rows.toNat) .undefined = u := by
      simpa [ArrayObject.filled, element?, hlt, hcol'] using hu
    simp only [ArrayObject.extents]
    rw [hindex, hu']

/-- A new array is filled with nothing. -/
theorem filled_nil (h : allocate elem extents = .ok x) : x.filled [] = x := by
  have hx := hasShape_allocate h
  refine hx.filled.ext hx fun i j hr => ?_
  have hr := inRange_filled.1 hr
  obtain ⟨u, hget⟩ := hx.shaped.exists_get hr
  rw [hx.shaped.get_filled hx.filled.shaped hr, hget,
    eq_undefined_of_mem_allocate h (get_mem hget)]
  rfl

theorem getD_concat (values : List Value) (v : Value) (n : Nat) :
    (values ++ [v]).getD n .undefined =
      if n = values.length then v else values.getD n .undefined := by
  simp only [List.getD_eq_getElem?_getD, List.getElem?_append, List.getElem?_singleton]
  grind

/-- Storing the next element fills the array with one more. -/
theorem HasShape.fill_filled (hx : x.HasShape elem extents) (hrows : 0 ≤ x.extents.1) {v : Value}
    (hv : v.hasTag x.elem) (hroom : (values.length : Int) < x.capacity) (heap : Heap)
    (name : Label) :
    (x.filled values).fill heap name values.length v = .ok (x.filled (values ++ [v])) := by
  have hfilled : (x.filled values).HasShape elem extents := hx.filled
  obtain ⟨i, j, hp, hr⟩ := fillPosition_inRange hrows (Int.natCast_nonneg values.length) hroom
  have hplace : ∀ k l, x.InRange k l →
      ((k + l * x.extents.1).toNat = values.length ↔ k = i ∧ l = j) := by
    rintro k l ⟨hk, hklt, hl, -⟩
    have hindex := @index_eq_iff k l x.extents.1 values.length hk hklt
    have hpos := Int.mul_nonneg hl hrows
    rw [fillPosition, if_neg (by omega)] at hp
    cases hp
    rw [← hindex]
    omega
  obtain ⟨x', hput⟩ := hfilled.shaped.exists_put (inRange_filled.2 hr) v
  have hx' : x' = x.filled (values ++ [v]) := by
    refine (hfilled.put hput).ext hx.filled fun k l hkl => ?_
    rw [InRange, (shape_put hput).2, extents_filled] at hkl
    rw [hfilled.shaped.get_put (inRange_filled.2 hr) hput (inRange_filled.2 hkl),
      hx.shaped.get_filled hfilled.shaped hkl, hx.shaped.get_filled hx.filled.shaped hkl,
      getD_concat]
    simp only [hplace k l hkl]
    split <;> rfl
  have hp' : (x.filled values).fillPosition values.length = .ok (i, j) := by
    rw [fillPosition, extents_filled]
    exact hp
  rw [fill, if_pos (by rw [elem_filled]; exact hv), hp', ok_bind]
  show (x.filled values).put i j v = _
  rw [hput, hx']

end ArrayObject

end MiniAlgol
