import MiniAlgol.Proofs.Heap.Text

/-!
# What the operations on arrays do

One lemma for each way an operation on the heap can end. Reading and writing find the array, check
the indices and go to a position within the extents; `Shaped` says that such a position has an
element, so neither fails there, and filling stays within the extents as long as the initializer
is no longer than the array.
-/

namespace MiniAlgol

namespace ArrayObject

variable {x x' : ArrayObject} {i j index : Int} {v : Value} {f : Fault}

/-! ## Arrays with an element at every position -/

/-- There are as many rows as declared, and each has as many elements as declared. -/
def Shaped : ArrayObject → Prop
  | line _ _ => True
  | grid _ rows cols cells => cells.size = rows.toNat ∧ ∀ row ∈ cells, row.size = cols.toNat

/-- An index below the length has its place, whatever the fault would be without one. -/
theorem exists_placeOf (missing : Fault) {length : Nat} (hi : 0 ≤ i) (hlt : i < length) :
    ∃ k, placeOf missing length i = .ok k := by
  refine ⟨⟨i.toNat, by omega⟩, ?_⟩
  simp only [placeOf, wrapIndex, if_neg (Int.not_lt.2 hi), dif_pos (And.intro hi hlt)]

/-- Each position within the extents has an element, so that reading there does not fail. -/
theorem Shaped.exists_get (hx : x.Shaped) (hr : x.InRange i j) : ∃ v, x.get i j = .ok v := by
  obtain ⟨hi, hilt, hj, hjlt⟩ := hr
  cases x with
  | line elem items =>
    obtain ⟨k, hk⟩ := exists_placeOf .noElement hi hilt
    exact ⟨items[k], by simp only [get, hk]; rfl⟩
  | grid elem rows cols cells =>
    obtain ⟨hrows, hcols⟩ := hx
    simp only [extents] at hilt hjlt
    have hrow : i < (cells.size : Int) := by
      rw [hrows]
      omega
    obtain ⟨⟨k, hlt⟩, hk⟩ := exists_placeOf .noElement hi hrow
    have hcol : j < (cells[k].size : Int) := by
      rw [hcols cells[k] (Array.getElem_mem _)]
      omega
    obtain ⟨l, hl⟩ := exists_placeOf .noElement hj hcol
    exact ⟨_, by simp only [get, hk, bind, Except.bind, hl]; rfl⟩

/-- Nor does storing there: the row is found as for a read, and then the place in it. -/
theorem Shaped.exists_put (hx : x.Shaped) (hr : x.InRange i j) (v : Value) :
    ∃ x', x.put i j v = .ok x' := by
  obtain ⟨hi, hilt, hj, hjlt⟩ := hr
  cases x with
  | line elem items =>
    obtain ⟨k, hk⟩ := exists_placeOf .noElementToReplace hi hilt
    exact ⟨line elem (items.set k v), by simp only [put, hk]; rfl⟩
  | grid elem rows cols cells =>
    obtain ⟨hrows, hcols⟩ := hx
    simp only [extents] at hilt hjlt
    have hrow : i < (cells.size : Int) := by
      rw [hrows]
      omega
    obtain ⟨⟨k, hlt⟩, hk⟩ := exists_placeOf .noElement hi hrow
    have hcol : j < (cells[k].size : Int) := by
      rw [hcols cells[k] (Array.getElem_mem _)]
      omega
    obtain ⟨l, hl⟩ := exists_placeOf .noElementToReplace hj hcol
    exact ⟨_, by simp only [put, hk, bind, Except.bind, hl]; rfl⟩

/-- A store puts an element in the place of another one, in one row, and leaves all lengths as they
were. -/
theorem Shaped.put (hx : x.Shaped) (h : x.put i j v = .ok x') : x'.Shaped := by
  cases x with
  | line elem items =>
    obtain ⟨k, -, h⟩ := bind_ok h
    cases h
    trivial
  | grid elem rows cols cells =>
    obtain ⟨k, -, h⟩ := bind_ok h
    obtain ⟨l, -, h⟩ := bind_ok h
    cases h
    obtain ⟨hrows, hcols⟩ := hx
    refine ⟨by rw [Array.size_modify]; exact hrows, fun row hrow => ?_⟩
    -- a row of the new array is the changed one, or one of those from before
    obtain ⟨n, hn, rfl⟩ := Array.mem_iff_getElem.1 hrow
    rw [Array.getElem_modify]
    split
    · rw [Array.size_setIfInBounds]
      exact hcols _ (Array.getElem_mem _)
    · exact hcols _ (Array.getElem_mem _)

/-- A new array has all the rows and columns that its extents say. An extent below zero gives none,
which is what the shape of the array says too. -/
theorem shaped_allocate {elem : Tag} {extents : List Int} (h : allocate elem extents = .ok x) :
    x.Shaped := by
  unfold allocate at h
  split at h
  · split at h
    · cases h
      trivial
    · cases h
  · split at h
    · cases h
      refine ⟨?_, by simp⟩
      simp only [List.size_toArray, List.length_nil]
      omega
    · split at h
      · cases h
        refine ⟨Array.size_replicate, fun row hrow => ?_⟩
        rw [Array.eq_of_mem_replicate hrow, undefinedCells, Array.size_replicate]
      · cases h
  · cases h

/-- Extents that are not negative give an array with no negative number of rows. -/
theorem rows_allocate {elem : Tag} {extents : List Int} (hext : ∀ n ∈ extents, 0 ≤ n)
    (h : allocate elem extents = .ok x) : 0 ≤ x.extents.1 := by
  unfold allocate at h
  split at h
  · split at h
    · cases h
      exact Int.natCast_nonneg _
    · cases h
  · rename_i rows cols
    have hrows : 0 ≤ rows := hext rows (by simp)
    split at h
    · cases h
      exact hrows
    · split at h
      · cases h
        exact hrows
      · cases h
  · cases h

/-- With one or two extents only those too far from zero are refused. -/
theorem allocate_error {elem : Tag} {extents : List Int}
    (hlen : extents.length = 1 ∨ extents.length = 2) (h : allocate elem extents = .error f) :
    f = .extentOutOfRange ∧ ∃ n ∈ extents, isLength n = false := by
  unfold allocate at h
  split at h
  · split at h
    · cases h
    · rename_i length hlength
      cases h
      exact ⟨rfl, length, by simp, by simpa using hlength⟩
  · split at h
    · cases h
    · split at h
      · cases h
      · rename_i rows cols _ hcols
        cases h
        exact ⟨rfl, cols, by simp, by simpa using hcols⟩
  · rename_i hone htwo
    rcases hlen with hlen | hlen
    · obtain ⟨n, rfl⟩ := List.length_eq_one_iff.1 hlen
      exact absurd rfl (hone n)
    · obtain ⟨n, m, rfl⟩ := List.length_eq_two.1 hlen
      exact absurd rfl (htwo n m)

/-! ## Filling -/

/-- A place for an element that the array has room for lies within the extents. -/
theorem fillPosition_inRange (hrows : 0 ≤ x.extents.1) (hindex : 0 ≤ index)
    (hlt : index < x.capacity) : ∃ i j, x.fillPosition index = .ok (i, j) ∧ x.InRange i j := by
  -- without rows there would be no room
  have hpos : 0 < x.extents.1 := by
    rcases Int.lt_or_eq_of_le hrows with h | h
    · exact h
    · rw [capacity, ← h, Int.zero_mul] at hlt
      omega
  refine ⟨_, _, if_neg hpos.ne', Int.fmod_nonneg hindex hrows, Int.fmod_lt_of_pos index hpos,
    Int.fdiv_nonneg hindex hrows, ?_⟩
  rw [Int.fdiv_eq_ediv_of_nonneg index hrows]
  refine Int.ediv_lt_of_lt_mul hpos ?_
  rw [Int.mul_comm]
  exact hlt

/-- A value that was filled in has the type of the elements and went to the position of its index.
-/
theorem fill_ok {heap : Heap} {name : Label} (h : x.fill heap name index v = .ok x') :
    v.hasTag x.elem ∧ ∃ i j, x.fillPosition index = .ok (i, j) ∧ x.put i j v = .ok x' := by
  unfold fill at h
  split at h
  · obtain ⟨p, hp, h⟩ := bind_ok h
    exact ⟨‹_›, p.1, p.2, hp, h⟩
  · obtain ⟨actual, -, h⟩ := bind_ok h
    cases h

/-- Filling fails with an error of the language or an integer that is too long, or at the position:
it has none, or there is no element there. -/
theorem fill_error {heap : Heap} {name : Label} (h : x.fill heap name index v = .error f) :
    (f.kind?.isSome ∨ f = .numeral .tooLongToWrite) ∨ x.fillPosition index = .error f ∨
      ∃ i j, x.fillPosition index = .ok (i, j) ∧ x.put i j v = .error f := by
  unfold fill at h
  split at h
  · rcases bind_error h with hp | ⟨p, hp, h⟩
    · exact .inr (.inl hp)
    · exact .inr (.inr ⟨p.1, p.2, hp, h⟩)
  · rcases bind_error h with hname | ⟨actual, -, h⟩
    · exact .inl (.inr (Value.typeName_error hname))
    · cases h
      exact .inl (.inl rfl)

/-- What refuses a value of another type in an initializer: an error that names its type, if the name
can be written. -/
def mismatchFault (heap : Heap) (name : Label) (index : Int) (elem : Tag) (v : Value) : Fault :=
  match v.typeName heap with
  | .ok actual => .elementMismatch name index elem actual
  | .error f => f

/-- A value of another type is refused before its position is looked for. -/
theorem fill_otherType (heap : Heap) (name : Label) (hv : v.hasTag x.elem = false) :
    x.fill heap name index v = .error (mismatchFault heap name index x.elem v) := by
  rw [fill, hv, if_neg (by decide), mismatchFault]
  cases v.typeName heap <;> rfl

/-- Only so many elements pass as there is room for. -/
theorem checkCapacity_ok {name : Label} {count : Int} (h : x.checkCapacity name count = .ok ()) :
    count ≤ x.capacity := by
  unfold checkCapacity at h
  split at h
  · obtain ⟨capacity, -, h⟩ := bind_ok h
    obtain ⟨count, -, h⟩ := bind_ok h
    cases h
  · omega

/-- The message says how much room there is and how many elements there are, and either number can
be too long to be written. -/
theorem checkCapacity_error {name : Label} {count : Int}
    (h : x.checkCapacity name count = .error f) :
    f.kind?.isSome ∨ f = .numeral .tooLongToWrite := by
  unfold checkCapacity at h
  split at h
  · rcases bind_error h with h | ⟨capacity, -, h⟩
    · exact .inr (Value.integerText_error h)
    · rcases bind_error h with h | ⟨count, -, h⟩
      · exact .inr (Value.integerText_error h)
      · cases h
        exact .inl rfl
  · cases h

end ArrayObject

namespace Heap

variable {heap heap' : Heap} {name : Label} {t v : Value} {is : List Value} {f : Fault}

/-! ## Finding the place of an element -/

/-- What is no array is refused, and its type has a name. -/
theorem exists_notArray (ht : ∀ a x, t = .array a → heap[a]? ≠ some x) :
    ∃ actual, notArray heap name t = .error (.notArray name actual) := by
  obtain ⟨actual, hactual⟩ := Value.exists_typeName ht
  exact ⟨actual, by rw [notArray, hactual]; rfl⟩

/-- What is found is an array, by its address. -/
theorem find_ok {p : Nat × ArrayObject} (h : find heap name t = .ok p) :
    t = .array p.1 ∧ heap[p.1]? = some p.2 := by
  unfold find at h
  split at h
  · split at h
    · rename_i hx
      cases h
      exact ⟨rfl, hx⟩
    · obtain ⟨actual, -, h⟩ := bind_ok h
      cases h
  · obtain ⟨actual, -, h⟩ := bind_ok h
    cases h

/-- What is no array is refused by the name of its type. Only the names of arrays have numbers in
them, so this name can be written. -/
theorem find_error (h : find heap name t = .error f) : f.kind?.isSome := by
  have hrefused : (∀ a x, t = .array a → heap[a]? ≠ some x) →
      notArray heap name t = .error f → f.kind?.isSome := by
    intro ht h
    obtain ⟨actual, hactual⟩ := exists_notArray ht
    rw [hactual] at h
    cases h
    rfl
  unfold find at h
  split at h
  · next a =>
    split at h
    · cases h
    · next hnone =>
      -- an address that no array has is refused like a value of another type
      refine hrefused (fun b x hb => ?_) h
      cases hb
      rw [hnone]
      exact (Option.some_ne_none x).symm
  · next hother => exact hrefused (fun a x ha => absurd ha (hother a)) h

/-- The indices are integers if they pass. -/
theorem integerIndices_ok {ns : List Int} (h : integerIndices heap name is = .ok ns) :
    is = ns.map Value.int := by
  induction is generalizing ns with
  | nil =>
    cases h
    rfl
  | cons v rest ih =>
    cases v with
    | int n =>
      obtain ⟨ms, hms, h⟩ := bind_ok h
      cases h
      rw [List.map_cons, ← ih hms]
    | _ =>
      obtain ⟨actual, -, h⟩ := bind_ok h
      cases h

/-- An index that is no integer is refused by the name of its type. -/
theorem integerIndices_error (h : integerIndices heap name is = .error f) :
    f.kind?.isSome ∨ f = .numeral .tooLongToWrite := by
  induction is with
  | nil => cases h
  | cons v rest ih =>
    cases v with
    | int n =>
      rcases bind_error h with hrest | ⟨ms, -, h⟩
      · exact ih hrest
      · cases h
    | _ =>
      rcases bind_error h with hname | ⟨actual, -, h⟩
      · exact .inr (Value.typeName_error hname)
      · cases h
        exact .inl rfl

/-- A position that is found lies within the extents, however many indices there were. -/
theorem position_ok {x : ArrayObject} {ns : List Int} {p : Int × Int}
    (h : position x name ns = .ok p) : x.InRange p.1 p.2 := by
  unfold position at h
  split at h
  · cases h
  · rename_i i rest
    simp only at h
    split at h
    · obtain ⟨shown, -, h⟩ := bind_ok h
      cases h
    · cases h
      simp only [ArrayObject.InRange]
      omega

/-- Without an index there is nothing to begin with. Otherwise the indices lie outside and the
message shows them, with the extents, if all of them can be written. -/
theorem position_error {x : ArrayObject} {ns : List Int} (h : position x name ns = .error f) :
    f.kind?.isSome ∨ f = .numeral .tooLongToWrite ∨ ns = [] ∧ f = .noElement := by
  unfold position at h
  split at h
  · cases h
    exact .inr (.inr ⟨rfl, rfl⟩)
  · simp only at h
    split at h
    · rcases bind_error h with hshown | ⟨shown, -, h⟩
      · obtain ⟨n, -, hn⟩ := exists_of_mapM_error hshown
        exact .inr (.inl (Value.integerText_error hn))
      · cases h
        exact .inl rfl
    · cases h

/-- The place of an element: the address of an array of the heap, the array itself and a position
within its extents. -/
theorem locate_ok {a : Nat} {x : ArrayObject} {i j : Int}
    (h : locate heap name t is = .ok (a, x, i, j)) :
    t = .array a ∧ heap[a]? = some x ∧ x.InRange i j := by
  obtain ⟨p, hp, h⟩ := bind_ok h
  obtain ⟨ns, -, h⟩ := bind_ok h
  obtain ⟨q, hq, h⟩ := bind_ok h
  cases h
  obtain ⟨ht, hx⟩ := find_ok hp
  exact ⟨ht, hx, position_ok hq⟩

/-- Without indices there is no place; otherwise only errors of the language come up, and texts with
integers that are too long. -/
theorem locate_error (h : locate heap name t is = .error f) :
    f.kind?.isSome ∨ f = .numeral .tooLongToWrite ∨ is = [] ∧ f = .noElement := by
  rcases bind_error h with hp | ⟨p, -, h⟩
  · exact .inl (find_error hp)
  · rcases bind_error h with hns | ⟨ns, hns, h⟩
    · exact (integerIndices_error hns).imp_right .inl
    · rcases bind_error h with hq | ⟨q, -, h⟩
      · refine (position_error hq).imp_right (Or.imp_right fun hempty => ⟨?_, hempty.2⟩)
        rw [integerIndices_ok hns, hempty.1, List.map_nil]
      · cases h

/-! ## Reading, writing and filling in the heap -/

/-- What is read is an element of an array of the heap, at a position within its extents. -/
theorem read_ok (h : read heap name t is = .ok v) :
    ∃ a x i j, t = .array a ∧ heap[a]? = some x ∧ x.InRange i j ∧ x.get i j = .ok v := by
  obtain ⟨⟨a, x, i, j⟩, hplace, h⟩ := bind_ok h
  obtain ⟨ht, hx, hr⟩ := locate_ok hplace
  exact ⟨a, x, i, j, ht, hx, hr, h⟩

/-- Reading fails when it finds no place, or at a place that has no element. The second cannot be in
an array that is `Shaped`. -/
theorem read_error (h : read heap name t is = .error f) :
    (f.kind?.isSome ∨ f = .numeral .tooLongToWrite ∨ is = [] ∧ f = .noElement) ∨
      ∃ a x i j, t = .array a ∧ heap[a]? = some x ∧ x.InRange i j ∧ x.get i j = .error f := by
  rcases bind_error h with hplace | ⟨⟨a, x, i, j⟩, hplace, h⟩
  · exact .inl (locate_error hplace)
  · obtain ⟨ht, hx, hr⟩ := locate_ok hplace
    exact .inr ⟨a, x, i, j, ht, hx, hr, h⟩

/-- A write changes one array of the heap, at one position within its extents. -/
theorem write_ok (h : write heap name t is v = .ok heap') :
    ∃ a x i j x', t = .array a ∧ heap[a]? = some x ∧ x.InRange i j ∧ x.put i j v = .ok x' ∧
      heap' = heap.setIfInBounds a x' := by
  obtain ⟨⟨a, x, i, j⟩, hplace, h⟩ := bind_ok h
  obtain ⟨x', hput, h⟩ := bind_ok h
  cases h
  obtain ⟨ht, hx, hr⟩ := locate_ok hplace
  exact ⟨a, x, i, j, x', ht, hx, hr, hput, rfl⟩

/-- Writing fails when it finds no place, or at a place that has no element to replace. -/
theorem write_error (h : write heap name t is v = .error f) :
    (f.kind?.isSome ∨ f = .numeral .tooLongToWrite ∨ is = [] ∧ f = .noElement) ∨
      ∃ a x i j, t = .array a ∧ heap[a]? = some x ∧ x.InRange i j ∧ x.put i j v = .error f := by
  rcases bind_error h with hplace | ⟨⟨a, x, i, j⟩, hplace, h⟩
  · exact .inl (locate_error hplace)
  · obtain ⟨ht, hx, hr⟩ := locate_ok hplace
    rcases bind_error h with hput | ⟨x', -, h⟩
    · exact .inr ⟨a, x, i, j, ht, hx, hr, hput⟩
    · cases h

theorem fill_ok {a : Nat} {x : ArrayObject} {index : Int} (hx : heap[a]? = some x)
    (h : fill heap name a index v = .ok heap') :
    v.hasTag x.elem ∧ ∃ i j x', x.put i j v = .ok x' ∧ heap' = heap.setIfInBounds a x' := by
  simp only [fill, update, hx] at h
  cases hfill : x.fill heap name index v with
  | error e =>
    rw [hfill] at h
    cases h
  | ok x' =>
    rw [hfill] at h
    cases h
    obtain ⟨htag, i, j, -, hput⟩ := ArrayObject.fill_ok hfill
    exact ⟨htag, i, j, x', hput, rfl⟩

theorem fill_error {a : Nat} {x : ArrayObject} {index : Int} (hx : heap[a]? = some x)
    (h : fill heap name a index v = .error f) : x.fill heap name index v = .error f := by
  simp only [fill, update, hx] at h
  cases hfill : x.fill heap name index v with
  | error e =>
    rw [hfill] at h
    cases h
    rfl
  | ok x' =>
    rw [hfill] at h
    cases h

end Heap

end MiniAlgol
