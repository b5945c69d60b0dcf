import MiniAlgol.Proofs.Heap.Likeness

/-!
# Routines with other bodies

A value shows everything of a routine but its body: two heaps that differ in the bodies of the
routines they hold cannot be told apart by looking at them. `mapBodies` puts other bodies into
values, arrays, heaps and faults; texts, names of types and comparisons stay what they were, and
operators, reads and stores give the same with other bodies.
-/

namespace MiniAlgol

variable (φ : List Node → List Node)

/-! ## Other bodies -/

/-- The routine with another body; its name, parameters and kind stay. -/
def Routine.mapBody (r : Routine) : Routine :=
  { r with body := φ r.body }

def Value.mapBodies : Value → Value
  | .routine id r => .routine id (r.mapBody φ)
  | v => v

def ArrayObject.mapBodies : ArrayObject → ArrayObject
  | .line elem items => .line elem (items.map (Value.mapBodies φ))
  | .grid elem rows cols cells => .grid elem rows cols (cells.map (·.map (Value.mapBodies φ)))

/-- The heap with other bodies in the routines that its arrays hold. Addresses stay what they were.
-/
def Heap.mapBodies (h : Heap) : Heap :=
  h.map (ArrayObject.mapBodies φ)

/-- The fault with other bodies in the value that it is about. -/
def Fault.mapBodies : Fault → Fault
  | .indexMismatch name v actual => .indexMismatch name (v.mapBodies φ) actual
  | .divisionByZero op shown v => .divisionByZero op shown (v.mapBodies φ)
  | .notBoolean construct actual shown v => .notBoolean construct actual shown (v.mapBodies φ)
  | f => f

variable {φ} {h : Heap} {v u : Value} {x : ArrayObject} {i j : Int} {α β : Type}

theorem Fault.mapBodies_of_value? {f : Fault} (hf : f.value? = none) : f.mapBodies φ = f := by
  cases f <;> first | rfl | cases hf

/-- The second result is the first one with other bodies. -/
abbrev EndMapped (φ : List Node → List Node) (τ : α → β) : Except Fault α → Except Fault β → Prop :=
  EndAlike (fun f f' => f' = f.mapBodies φ) (fun a b => b = τ a)

/-- One result in both places, which is about no value. -/
theorem EndMapped.same {τ : α → α} {r : Except Fault α} (hok : ∀ a, r = .ok a → τ a = a)
    (herror : ∀ f, r = .error f → f.value? = none) : EndMapped φ τ r r :=
  EndAlike.same (fun a ha => (hok a ha).symm) fun f hf =>
    (Fault.mapBodies_of_value? (herror f hf)).symm

/-- A result without a value in it, such as a text, is the same in both places. -/
theorem EndMapped.equal {r : Except Fault α} (herror : ∀ f, r = .error f → f.value? = none) :
    EndMapped φ id r r :=
  .same (fun _ _ => rfl) herror

/-! ## What values show -/

@[simp] theorem Heap.getElem?_mapBodies (a : Nat) :
    (h.mapBodies φ)[a]? = (h[a]?).map (ArrayObject.mapBodies φ) := by
  simp [Heap.mapBodies]

@[simp] theorem Heap.size_mapBodies : (h.mapBodies φ).size = h.size := by
  simp [Heap.mapBodies]

namespace ArrayObject

@[simp] theorem elem_mapBodies : (x.mapBodies φ).elem = x.elem := by
  cases x <;> rfl

@[simp] theorem extents_mapBodies : (x.mapBodies φ).extents = x.extents := by
  cases x <;> simp [mapBodies, extents]

@[simp] theorem typeName_mapBodies : (x.mapBodies φ).typeName = x.typeName := by
  cases x with
  | line elem items => simp only [mapBodies, typeName, Array.size_map]
  | grid => rfl

@[simp] theorem capacity_mapBodies : (x.mapBodies φ).capacity = x.capacity := by
  rw [capacity, capacity, extents_mapBodies]

/-- The two arrays have one shape, so that what is known of alike arrays holds of them. -/
theorem like_mapBodies : x.Like (fun v v' => v' = v.mapBodies φ) (x.mapBodies φ) := by
  cases x with
  | line elem items => exact .line (by simp [List.forall₂_same])
  | grid elem rows cols cells => exact .grid (by simp [List.forall₂_same])

theorem eq_map_of_forall₂ {f : α → β} {l : List α} {l' : List β}
    (hl : List.Forall₂ (fun a b => b = f a) l l') : l' = l.map f := by
  induction hl with
  | nil => rfl
  | cons hab _ ih => rw [hab, ih, List.map_cons]

theorem eq_map_of_forall₂_toList {f : α → β} {xs : Array α} {ys : Array β}
    (h : List.Forall₂ (fun a b => b = f a) xs.toList ys.toList) : ys = xs.map f := by
  apply Array.toList_inj.1
  rw [eq_map_of_forall₂ h, Array.toList_map]

/-- And alike arrays of the mapped elements are no others. -/
theorem eq_mapBodies {x' : ArrayObject} (hx : x.Like (fun v v' => v' = v.mapBodies φ) x') :
    x' = x.mapBodies φ := by
  cases hx with
  | line hitems => rw [mapBodies, eq_map_of_forall₂_toList hitems]
  | grid hcells =>
    rw [mapBodies, eq_map_of_forall₂_toList (hcells.imp fun _ _ => eq_map_of_forall₂_toList)]

end ArrayObject

namespace Value

@[simp] theorem hasTag_mapBodies (tag : Tag) : (v.mapBodies φ).hasTag tag = v.hasTag tag := by
  cases v <;> rfl

@[simp] theorem isText_mapBodies : (v.mapBodies φ).isText = v.isText := by
  cases v <;> rfl

@[simp] theorem isZero_mapBodies : (v.mapBodies φ).isZero = v.isZero := by
  cases v <;> rfl

@[simp] theorem isNumeric_mapBodies : (v.mapBodies φ).isNumeric = v.isNumeric := by
  cases v <;> rfl

theorem mapBodies_of_isScalar (hv : v.isScalar) : v.mapBodies φ = v := by
  cases v <;> first | rfl | cases hv

theorem mapBodies_of_isNumeric (hv : v.isNumeric) : v.mapBodies φ = v := by
  cases v <;> first | rfl | cases hv

@[simp] theorem equal_mapBodies : (v.mapBodies φ).equal (u.mapBodies φ) = v.equal u := by
  cases v <;> cases u <;> rfl

@[simp] theorem typeName_mapBodies : (v.mapBodies φ).typeName (h.mapBodies φ) = v.typeName h := by
  cases v with
  | array a =>
    simp only [mapBodies, typeName, Heap.getElem?_mapBodies]
    cases h[a]? with
    | none => rfl
    | some x => exact ArrayObject.typeName_mapBodies
  | _ => rfl

/-- The name of a type is the same or cannot be written in both places, and is about no value. -/
theorem typeName_endMapped :
    EndMapped φ id (v.typeName h) ((v.mapBodies φ).typeName (h.mapBodies φ)) := by
  rw [typeName_mapBodies]
  exact .equal fun _ => typeName_value?

/-- The texts of the elements are made one by one, so they stay if that of each element does. -/
theorem elementTexts_mapBodies {each each' : Value → Except Fault String}
    (heach : ∀ v, each' (v.mapBodies φ) = each v) :
    elementTexts each' (x.mapBodies φ) = elementTexts each x :=
  (elementTexts_congr (x.like_mapBodies.imp fun v _ hv => by rw [hv, heach])).symm

/-- No text shows the body of a routine: a routine is shown by its kind and its name. -/
theorem textWithin_mapBodies (n : Nat) :
    textWithin (h.mapBodies φ) n (v.mapBodies φ) = textWithin h n v := by
  -- on the depth: arrays may hold themselves
  induction n generalizing v with
  | zero => cases v <;> rfl
  | succ n ih =>
    cases v with
    | array a =>
      simp only [mapBodies, textWithin, Heap.getElem?_mapBodies]
      cases h[a]? with
      | none => rfl
      | some x => exact elementTexts_mapBodies fun v => ih
    | _ => rfl

@[simp] theorem plainText_mapBodies :
    (v.mapBodies φ).plainText (h.mapBodies φ) = v.plainText h := by
  rw [plainText, plainText, Heap.size_mapBodies, textWithin_mapBodies]

theorem arrayListing_mapBodies (elements : String) :
    arrayListing (x.mapBodies φ) elements = arrayListing x elements := by
  cases x <;> rfl

/-- Listings stop at arrays that are being listed already. These are known by their addresses, which
are the same in both heaps. -/
theorem listingWithin_mapBodies (n : Nat) (around : List Nat) :
    listingWithin (h.mapBodies φ) n around (v.mapBodies φ) = listingWithin h n around v := by
  -- on the depth again, and the arrays around are others in each step
  induction n generalizing v around with
  | zero => cases v <;> rfl
  | succ n ih =>
    cases v with
    | array a =>
      simp only [mapBodies, listingWithin, Heap.getElem?_mapBodies]
      cases h[a]? with
      | none => rfl
      | some x =>
        simp only [Option.map_some, arrayListing_mapBodies]
        rw [elementTexts_mapBodies fun v => ih (a :: around)]
    | _ => rfl

@[simp] theorem listing_mapBodies : (v.mapBodies φ).listing (h.mapBodies φ) = v.listing h := by
  rw [listing, listing, Heap.size_mapBodies, listingWithin_mapBodies]

theorem mapM_listing_mapBodies (vs : List Value) :
    (vs.map (Value.mapBodies φ)).mapM (Value.listing (h.mapBodies φ)) =
      vs.mapM (Value.listing h) := by
  induction vs with
  | nil => rfl
  | cons v vs ih => rw [List.map_cons, List.mapM_cons, List.mapM_cons, ih, listing_mapBodies]

theorem listings_mapBodies (vs : List Value) :
    listings (h.mapBodies φ) (vs.map (Value.mapBodies φ)) = listings h vs := by
  rw [listings, listings, mapM_listing_mapBodies]

theorem listing_endMapped :
    EndMapped φ id (v.listing h) ((v.mapBodies φ).listing (h.mapBodies φ)) := by
  rw [listing_mapBodies]
  refine .equal fun f hf => ?_
  rw [listing_error hf]
  rfl

theorem mapM_listing_endMapped {vs : List Value} :
    EndMapped φ id (vs.mapM (Value.listing h))
      ((vs.map (Value.mapBodies φ)).mapM (Value.listing (h.mapBodies φ))) := by
  rw [mapM_listing_mapBodies]
  refine .equal fun f hf => ?_
  obtain ⟨v, -, hv⟩ := exists_of_mapM_error hf
  rw [listing_error hv]
  rfl

theorem listings_endMapped {vs : List Value} :
    EndMapped φ id (listings h vs) (listings (h.mapBodies φ) (vs.map (Value.mapBodies φ))) := by
  rw [listings_mapBodies]
  refine .equal fun f hf => ?_
  rw [listings_error hf]
  rfl

end Value

/-- Without routines in it, an array stays as it is. -/
theorem ArrayObject.mapBodies_of_isScalar (hx : ∀ v ∈ x.elements, v.isScalar) :
    x.mapBodies φ = x := by
  have hlike : x.Like (fun v v' => v' = v.mapBodies φ) x :=
    .self fun v hv => (Value.mapBodies_of_isScalar (hx v hv)).symm
  exact (eq_mapBodies hlike).symm

/-! ## Operators -/

namespace Value

variable {op : String}

/-- Numbers have no bodies; other operands are refused by the names of their types. -/
theorem arithmetic_mapBodies {g : Arithmetic} :
    arithmetic (h.mapBodies φ) op g (v.mapBodies φ) (u.mapBodies φ) = arithmetic h op g v u := by
  cases hn : v.isNumeric && u.isNumeric with
  | true =>
    rw [Bool.and_eq_true] at hn
    have hv : (v.mapBodies φ).typeName (h.mapBodies φ) = v.typeName h := typeName_mapBodies
    have hu : (u.mapBodies φ).typeName (h.mapBodies φ) = u.typeName h := typeName_mapBodies
    rw [mapBodies_of_isNumeric hn.1] at hv ⊢
    rw [mapBodies_of_isNumeric hn.2] at hu ⊢
    simp only [arithmetic, promote, unsupported, hv, hu]
  | false =>
    rw [arithmetic_unsupported hn, arithmetic_unsupported (by simpa using hn), unsupported,
      unsupported, typeName_mapBodies, typeName_mapBodies]

theorem compare_mapBodies {o : Order} :
    compare (h.mapBodies φ) op o (v.mapBodies φ) (u.mapBodies φ) = compare h op o v u := by
  cases hn : v.isNumeric && u.isNumeric with
  | true =>
    rw [Bool.and_eq_true] at hn
    have hv : (v.mapBodies φ).typeName (h.mapBodies φ) = v.typeName h := typeName_mapBodies
    have hu : (u.mapBodies φ).typeName (h.mapBodies φ) = u.typeName h := typeName_mapBodies
    rw [mapBodies_of_isNumeric hn.1] at hv ⊢
    rw [mapBodies_of_isNumeric hn.2] at hu ⊢
    simp only [compare, promote, unsupported, hv, hu]
  | false =>
    rw [compare_unsupported hn, compare_unsupported (by simpa using hn), unsupported,
      unsupported, typeName_mapBodies, typeName_mapBodies]

theorem plainText_endMapped :
    EndMapped φ id (v.plainText h) ((v.mapBodies φ).plainText (h.mapBodies φ)) := by
  rw [plainText_mapBodies]
  exact .same (fun _ _ => rfl) fun _ => plainText_value?

/-- Every operator gives the same with other bodies. Only the fault of a division by zero is about
an operand, which then has another body in it. -/
theorem applySign_endMapped : EndMapped φ (Value.mapBodies φ) (applySign h op v u)
    (applySign (h.mapBodies φ) op (v.mapBodies φ) (u.mapBodies φ)) := by
  -- what arithmetic gives is a number, in which there is nothing to put other bodies into
  have harithmetic : ∀ {g : Arithmetic}, EndMapped φ (Value.mapBodies φ) (arithmetic h op g v u)
      (arithmetic h op g v u) :=
    .same (fun _ hok => mapBodies_of_isScalar (arithmetic_ok hok)) fun _ => arithmetic_value?
  unfold applySign
  simp only [isText_mapBodies, isZero_mapBodies, equal_mapBodies, arithmetic_mapBodies,
    compare_mapBodies]
  split
  · exact .error rfl
  · exact .ok rfl
  · exact .ok rfl
  · exact .same (fun _ hok => mapBodies_of_isScalar (compare_ok hok)) fun _ => compare_value?
  · split
    · refine plainText_endMapped.bind ?_
      rintro left _ rfl
      refine plainText_endMapped.bind ?_
      rintro right _ rfl
      exact .ok rfl
    · exact harithmetic
  · split
    · refine plainText_endMapped.bind ?_
      rintro shown _ rfl
      exact .error rfl
    · exact harithmetic
  · exact harithmetic

theorem apply_endMapped {op : Label} : EndMapped φ (Value.mapBodies φ) (v.apply h op u)
    ((v.mapBodies φ).apply (h.mapBodies φ) op (u.mapBodies φ)) := by
  unfold apply
  split
  · exact applySign_endMapped
  · exact .error rfl

end Value

/-! ## Reading and storing -/

/-- Nothing stands for anything. -/
def Matching.nothing : Matching where
  array _ _ := False
  routine _ _ := False
  array_iff h := h.elim
  routine_iff h := h.elim

/-- What ends alike without arrays and routines in the faults ends so with other bodies. -/
theorem endMapped_of_alike {R : α → β → Prop} {r : Except Fault α} {r' : Except Fault β}
    (hr : EndAlike (Fault.Alike .nothing) R r r') :
    EndAlike (fun f f' => f' = f.mapBodies φ) R r r' := by
  have hvalue : ∀ {v v' : Value}, v.Alike .nothing v' → v' = v.mapBodies φ := by
    intro v v' hv
    cases hv with
    | scalar hv => exact (Value.mapBodies_of_isScalar hv).symm
    | array hv => exact hv.elim
    | routine r hv => exact hv.elim
    | builtin => rfl
  cases hr with
  | ok h => exact .ok h
  | error h =>
    refine .error ?_
    cases h with
    | plain hf => exact (Fault.mapBodies_of_value? hf).symm
    | indexMismatch name actual hv => rw [hvalue hv, Fault.mapBodies]
    | divisionByZero op shown hv => rw [hvalue hv, Fault.mapBodies]
    | notBoolean construct actual shown hv => rw [hvalue hv, Fault.mapBodies]

namespace ArrayObject

theorem get_endMapped : EndMapped φ (Value.mapBodies φ) (x.get i j) ((x.mapBodies φ).get i j) :=
  endMapped_of_alike x.like_mapBodies.get

/-- A value that is stored goes into the array with its other body. -/
theorem put_endMapped : EndMapped φ (ArrayObject.mapBodies φ) (x.put i j v)
    ((x.mapBodies φ).put i j (v.mapBodies φ)) := by
  have hput : EndAlike (fun f f' => f' = f.mapBodies φ) (Like fun v v' => v' = v.mapBodies φ)
      (x.put i j v) ((x.mapBodies φ).put i j (v.mapBodies φ)) :=
    endMapped_of_alike (x.like_mapBodies.put rfl)
  -- `Like` says this of the elements one by one; together they are the mapped array
  generalize x.put i j v = r at hput ⊢
  generalize (x.mapBodies φ).put i j (v.mapBodies φ) = r' at hput ⊢
  cases hput with
  | ok hy => exact .ok (eq_mapBodies hy)
  | error hf => exact .error hf

end ArrayObject

namespace Heap

variable {name : Label} {t : Value} {is : List Value}

theorem setIfInBounds_mapBodies (a : Nat) :
    Heap.mapBodies φ (h.setIfInBounds a x) = (h.mapBodies φ).setIfInBounds a (x.mapBodies φ) := by
  simp [mapBodies]

theorem push_mapBodies : Heap.mapBodies φ (h.push x) = (h.mapBodies φ).push (x.mapBodies φ) := by
  simp [mapBodies]

/-- An address leads to the same array with other bodies, and what is no array is refused by the
name of its type. -/
theorem find_endMapped : EndMapped φ (fun p => (p.1, p.2.mapBodies φ)) (find h name t)
    (find (h.mapBodies φ) name (t.mapBodies φ)) := by
  have hrefused : EndMapped φ (fun p => (p.1, p.2.mapBodies φ)) (notArray h name t)
      (notArray (h.mapBodies φ) name (t.mapBodies φ)) := by
    refine Value.typeName_endMapped.bind ?_
    rintro actual _ rfl
    exact .error rfl
  cases t with
  | array a =>
    simp only [find, Value.mapBodies, getElem?_mapBodies]
    cases h[a]? with
    | none => exact hrefused
    | some x => exact .ok rfl
  | _ => exact hrefused

/-- Integers are the same in both places, and other indices are refused by the names of their types.
-/
theorem integerIndices_endMapped : EndMapped φ id (integerIndices h name is)
    (integerIndices (h.mapBodies φ) name (is.map (Value.mapBodies φ))) := by
  induction is with
  | nil => exact .ok rfl
  | cons v rest ih =>
    cases v with
    | int n =>
      refine ih.bind ?_
      rintro ns _ rfl
      exact .ok rfl
    | _ =>
      refine Value.typeName_endMapped.bind ?_
      rintro actual _ rfl
      exact .error rfl

/-- The place of an element depends on the extents and the indices only. -/
theorem locate_endMapped : EndMapped φ (fun p => (p.1, p.2.1.mapBodies φ, p.2.2))
    (locate h name t is)
    (locate (h.mapBodies φ) name (t.mapBodies φ) (is.map (Value.mapBodies φ))) := by
  refine find_endMapped.bind ?_
  rintro ⟨a, x⟩ _ rfl
  refine integerIndices_endMapped.bind ?_
  intro ns ns' hns
  obtain rfl : ns' = ns := hns
  have hposition : position (x.mapBodies φ) name ns' = position x name ns' := by
    simp only [position, ArrayObject.extents_mapBodies]
  simp only [hposition]
  refine (EndMapped.equal fun _ => position_value?).bind ?_
  rintro ⟨i, j⟩ _ rfl
  exact .ok rfl

theorem read_endMapped : EndMapped φ (Value.mapBodies φ) (read h name t is)
    (read (h.mapBodies φ) name (t.mapBodies φ) (is.map (Value.mapBodies φ))) := by
  refine locate_endMapped.bind ?_
  rintro ⟨a, x, i, j⟩ _ rfl
  exact ArrayObject.get_endMapped

theorem write_endMapped : EndMapped φ (Heap.mapBodies φ) (write h name t is v)
    (write (h.mapBodies φ) name (t.mapBodies φ) (is.map (Value.mapBodies φ)) (v.mapBodies φ)) := by
  refine locate_endMapped.bind ?_
  rintro ⟨a, x, i, j⟩ _ rfl
  refine ArrayObject.put_endMapped.bind ?_
  rintro y _ rfl
  exact .ok (setIfInBounds_mapBodies a).symm

/-- Filling looks at the type of the value and at the extents, neither of which depends on bodies.
-/
theorem arrayFill_endMapped {index : Int} : EndMapped φ (ArrayObject.mapBodies φ)
    (x.fill h name index v) ((x.mapBodies φ).fill (h.mapBodies φ) name index (v.mapBodies φ)) := by
  simp only [ArrayObject.fill, ArrayObject.elem_mapBodies, Value.hasTag_mapBodies,
    Value.typeName_mapBodies]
  split
  · have hposition : (x.mapBodies φ).fillPosition index = x.fillPosition index := by
      simp only [ArrayObject.fillPosition, ArrayObject.extents_mapBodies]
    rw [hposition]
    refine (EndMapped.equal fun _ => fillPosition_value?).bind ?_
    rintro ⟨i, j⟩ _ rfl
    exact ArrayObject.put_endMapped
  · refine (EndMapped.equal fun _ => Value.typeName_value?).bind ?_
    rintro actual _ rfl
    exact .error rfl

theorem fill_endMapped {a : Nat} {index : Int} : EndMapped φ (Heap.mapBodies φ)
    (fill h name a index v) (fill (h.mapBodies φ) name a index (v.mapBodies φ)) := by
  simp only [fill, update, getElem?_mapBodies]
  cases h[a]? with
  | none => exact .ok rfl
  | some x =>
    have hfill : EndMapped φ (ArrayObject.mapBodies φ) (x.fill h name index v)
        ((x.mapBodies φ).fill (h.mapBodies φ) name index (v.mapBodies φ)) :=
      arrayFill_endMapped
    simp only [Option.map_some]
    generalize x.fill h name index v = r at hfill ⊢
    generalize (x.mapBodies φ).fill (h.mapBodies φ) name index (v.mapBodies φ) = r' at hfill ⊢
    cases hfill with
    | ok hy => exact .ok (hy ▸ (setIfInBounds_mapBodies a).symm)
    | error hf => exact .error hf

end Heap

end MiniAlgol
