import MiniAlgol.Proofs.Heap.Store
import MiniAlgol.Proofs.Run.Actions
import MiniAlgol.Proofs.Value.Operators

/-!
# Heaps that are alike

Two heaps can hold the same arrays under different addresses. A `Matching` says which identities of
the one stand for which of the other, one to one; then values, faults, arrays and heaps are alike
when they are equal up to it. What can be observed of alike values is equal (`plainText_alike`,
`typeName_alike`, `equal_alike`), and operators, reads and stores on them end alike.
-/

namespace MiniAlgol

/-- Which identities of two heaps stand for one another. -/
structure Matching where
  array : Nat → Nat → Prop
  routine : Nat → Nat → Prop
  array_iff : ∀ {a b a' b'}, array a b → array a' b' → (a = a' ↔ b = b')
  routine_iff : ∀ {i j i' j'}, routine i j → routine i' j' → (i = i' ↔ j = j')

/-- Nothing is lost from one matching to the other. -/
structure Matching.Le (M M' : Matching) : Prop where
  array : ∀ {a b}, M.array a b → M'.array a b
  routine : ∀ {i j}, M.routine i j → M'.routine i j

/-- Values that are equal up to a matching. -/
inductive Value.Alike (M : Matching) : Value → Value → Prop where
  | scalar {v : Value} (hv : v.isScalar) : Alike M v v
  | array {a b : Nat} (h : M.array a b) : Alike M (.array a) (.array b)
  | routine {i j : Nat} (r : Routine) (h : M.routine i j) : Alike M (.routine i r) (.routine j r)
  | builtin (id : Nat) (b : Builtin) : Alike M (.builtin id b) (.builtin id b)

/-- Faults that are equal up to a matching. -/
inductive Fault.Alike (M : Matching) : Fault → Fault → Prop where
  | plain {f : Fault} (hf : f.value? = none) : Alike M f f
  | indexMismatch (name : Label) (actual : String) {v v' : Value} (hv : v.Alike M v') :
      Alike M (.indexMismatch name v actual) (.indexMismatch name v' actual)
  | divisionByZero (op shown : String) {v v' : Value} (hv : v.Alike M v') :
      Alike M (.divisionByZero op shown v) (.divisionByZero op shown v')
  | notBoolean (construct actual shown : String) {v v' : Value} (hv : v.Alike M v') :
      Alike M (.notBoolean construct actual shown v) (.notBoolean construct actual shown v')

/-- Heaps whose matched arrays are alike. -/
def Heap.Alike (M : Matching) (h h' : Heap) : Prop :=
  ∀ ⦃a b⦄, M.array a b →
    ∃ x x', h[a]? = some x ∧ h'[b]? = some x' ∧ x.Like (Value.Alike M) x'

variable {M M' : Matching} {h h' : Heap} {v v' u u' : Value}

theorem Value.Alike.le (hM : M.Le M') (hv : v.Alike M v') : v.Alike M' v' := by
  cases hv with
  | scalar hv => exact .scalar hv
  | array ha => exact .array (hM.array ha)
  | routine r hi => exact .routine r (hM.routine hi)
  | builtin id b => exact .builtin id b

/-! ## Arrays of one shape -/

namespace ArrayObject

variable {R R' : Value → Value → Prop} {x x' : ArrayObject} {i j : Int}

theorem Like.imp (hx : x.Like R x') (hR : ∀ v v', R v v' → R' v v') : x.Like R' x' := by
  cases hx with
  | line hitems => exact .line (hitems.imp hR)
  | grid hcells => exact .grid (hcells.imp fun _ _ hrow => hrow.imp hR)

theorem Like.elem_eq (hx : x.Like R x') : x'.elem = x.elem := by
  cases hx <;> rfl

theorem Like.typeName_eq (hx : x.Like R x') : x'.typeName = x.typeName := by
  cases hx with
  | line hitems =>
    have hsize := hitems.length_eq
    simp only [Array.length_toList] at hsize
    simp only [typeName, hsize]
  | grid hcells => rfl

theorem Like.extents_eq (hx : x.Like R x') : x'.extents = x.extents := by
  cases hx with
  | line hitems =>
    have hsize := hitems.length_eq
    simp only [Array.length_toList] at hsize
    simp only [extents, hsize]
  | grid hcells => rfl

theorem Like.capacity_eq (hx : x.Like R x') : x'.capacity = x.capacity := by
  rw [capacity, capacity, hx.extents_eq]

/-- The place of an index is the same in lists of one length. -/
theorem placeOf_alike (missing : Fault) (hmissing : missing.value? = none) {n n' : Nat}
    (hn : n = n') (i : Int) :
    EndAlike (Fault.Alike M) (fun (k : Fin n) (k' : Fin n') => k.val = k'.val)
      (placeOf missing n i) (placeOf missing n' i) := by
  subst hn
  refine EndAlike.same (fun _ _ => rfl) fun f hf => .plain ?_
  unfold placeOf at hf
  split at hf
  · cases hf
  · cases hf
    split
    · exact hmissing
    · rfl

theorem forall₂_getElem {α β : Type} {R : α → β → Prop} {xs : Array α} {ys : Array β}
    (hR : List.Forall₂ R xs.toList ys.toList) {k : Fin xs.size} {l : Fin ys.size}
    (hkl : k.val = l.val) : R xs[k] ys[l] := by
  have hget := hR.get (i := k.val) (by simp) (by simp [hkl])
  simpa [hkl] using hget

theorem Like.get (hx : x.Like R x') :
    EndAlike (Fault.Alike M) R (x.get i j) (x'.get i j) := by
  cases hx with
  | line hitems =>
    have hsize := hitems.length_eq
    simp only [Array.length_toList] at hsize
    refine (placeOf_alike .noElement rfl hsize i).bind fun k l hkl => ?_
    exact .ok (forall₂_getElem hitems hkl)
  | grid hcells =>
    have hsize := hcells.length_eq
    simp only [Array.length_toList] at hsize
    refine (placeOf_alike .noElement rfl hsize i).bind fun k l hkl => ?_
    have hrow := forall₂_getElem hcells hkl
    have hrowSize := hrow.length_eq
    simp only [Array.length_toList] at hrowSize
    refine (placeOf_alike .noElement rfl hrowSize j).bind fun k' l' hkl' => ?_
    exact .ok (forall₂_getElem hrow hkl')

theorem forall₂_set {α β : Type} {R : α → β → Prop} {l : List α} {l' : List β} {a : α} {b : β}
    (hl : List.Forall₂ R l l') (hab : R a b) {n n' : Nat} (hn : n = n') :
    List.Forall₂ R (l.set n a) (l'.set n' b) := by
  subst hn
  induction hl generalizing n with
  | nil => exact .nil
  | cons hcd hrest ih =>
    cases n with
    | zero => exact .cons hab hrest
    | succ n => exact .cons hcd ih

theorem Like.put (hx : x.Like R x') (hv : R v v') :
    EndAlike (Fault.Alike M) (Like R) (x.put i j v) (x'.put i j v') := by
  cases hx with
  | line hitems =>
    have hsize := hitems.length_eq
    simp only [Array.length_toList] at hsize
    refine (placeOf_alike .noElementToReplace rfl hsize i).bind fun k l hkl => .ok (.line ?_)
    rw [Array.toList_set, Array.toList_set]
    exact forall₂_set hitems hv hkl
  | @grid elem rows cols cells cells' hcells =>
    have hsize := hcells.length_eq
    simp only [Array.length_toList] at hsize
    refine (placeOf_alike .noElement rfl hsize i).bind fun k l hkl => ?_
    have hrow := forall₂_getElem hcells hkl
    have hrowSize := hrow.length_eq
    simp only [Array.length_toList] at hrowSize
    refine (placeOf_alike .noElementToReplace rfl hrowSize j).bind fun k' l' hkl' => .ok (.grid ?_)
    have hset : List.Forall₂ R (cells[k].setIfInBounds k' v).toList
        (cells'[l].setIfInBounds l' v').toList := by
      rw [Array.toList_setIfInBounds, Array.toList_setIfInBounds]
      exact forall₂_set hrow hv hkl'
    -- changing one row is setting it
    have hmodify : ∀ {cells : Array (Array Value)} (k : Fin cells.size)
        (f : Array Value → Array Value),
        (cells.modify k f).toList = cells.toList.set k (f cells[k]) := by
      intro cells k f
      refine List.ext_getElem (by simp) fun n hn hn' => ?_
      simp only [Array.getElem_toList, Array.getElem_modify, List.getElem_set]
      split
      · rename_i hkn
        subst hkn
        rfl
      · rfl
    rw [hmodify, hmodify]
    exact forall₂_set hcells hset hkl

/-! Faults of new arrays and of full ones are about no value. -/

theorem allocate_value? {elem : Tag} {extents : List Int} {f : Fault}
    (hf : allocate elem extents = .error f) : f.value? = none := by
  unfold allocate at hf
  grind [Fault.value?]

theorem checkCapacity_value? {name : Label} {count : Int} {f : Fault}
    (hf : x.checkCapacity name count = .error f) : f.value? = none := by
  unfold checkCapacity at hf
  split at hf
  · rcases bind_error hf with hf | ⟨capacity, -, hf⟩
    · rw [Value.integerText_error hf]
      rfl
    · rcases bind_error hf with hf | ⟨count, -, hf⟩
      · rw [Value.integerText_error hf]
        rfl
      · cases hf
        rfl
  · cases hf

end ArrayObject

/-! ## What can be observed -/

namespace Value

theorem textWithin_alike (hh : h.Alike M h') (hv : v.Alike M v') (n : Nat) :
    textWithin h n v = textWithin h' n v' := by
  -- on the depth: arrays may hold themselves, so there is no induction on the value
  induction n generalizing v v' with
  | zero =>
    cases hv with
    | @scalar v hv => cases v <;> rfl
    | array ha => rfl
    | routine r hi => rfl
    | builtin id b => rfl
  | succ n ih =>
    cases hv with
    | @scalar v hv => cases v <;> first | rfl | cases hv
    | array ha =>
      obtain ⟨x, x', hx, hx', hlike⟩ := hh ha
      rw [textWithin_array hx, textWithin_array hx']
      exact elementTexts_congr (hlike.imp fun _ _ hu => ih hu)
    | routine r hi => rfl
    | builtin id b => rfl

/-- Alike values have one plain text. -/
theorem plainText_alike (hh : h.Alike M h') (hv : v.Alike M v') :
    v.plainText h = v'.plainText h' := by
  -- the two heaps may differ in size, so both texts are taken with fuel for the larger one
  rw [← textWithin_eq_plainText (le_max_left h.size h'.size),
    ← textWithin_eq_plainText (le_max_right h.size h'.size)]
  exact textWithin_alike hh hv _

theorem typeName_alike (hh : h.Alike M h') (hv : v.Alike M v') :
    v.typeName h = v'.typeName h' := by
  cases hv with
  | @scalar v hv => cases v <;> first | rfl | cases hv
  | array ha =>
    obtain ⟨x, x', hx, hx', hlike⟩ := hh ha
    simp only [typeName, hx, hx', hlike.typeName_eq]
  | routine r hi => rfl
  | builtin id b => rfl

/-- The language compares alike values alike. -/
theorem equal_alike (hv : v.Alike M v') (hu : u.Alike M u') : v.equal u = v'.equal u' := by
  cases hv with
  | @scalar v hv =>
    cases hu with
    | scalar hu => rfl
    | _ => cases v <;> first | rfl | cases hv
  | array ha =>
    cases hu with
    | @scalar u hu => cases u <;> first | rfl | cases hu
    | array hb =>
      -- arrays are compared by identity, which the matching keeps apart
      simp only [equal]
      rw [Bool.eq_iff_iff, beq_iff_eq, beq_iff_eq]
      exact M.array_iff ha hb
    | _ => rfl
  | routine r hi =>
    cases hu with
    | @scalar u hu => cases u <;> first | rfl | cases hu
    | routine r' hj =>
      simp only [equal]
      rw [Bool.eq_iff_iff, beq_iff_eq, beq_iff_eq]
      exact M.routine_iff hi hj
    | _ => rfl
  | builtin id b =>
    cases hu with
    | @scalar u hu => cases u <;> rfl
    | _ => rfl

/-! ## Operators -/

theorem Alike.eq_or_not_isScalar (hv : v.Alike M v') :
    v = v' ∨ v.isScalar = false ∧ v'.isScalar = false := by
  cases hv with
  | scalar hv => exact .inl rfl
  | _ => exact .inr ⟨rfl, rfl⟩

theorem isNumeric_eq_false (hv : v.isScalar = false) : v.isNumeric = false := by
  cases v <;> first | rfl | cases hv

theorem isText_alike (hv : v.Alike M v') : v.isText = v'.isText := by
  cases hv <;> rfl

theorem isZero_alike (hv : v.Alike M v') : v.isZero = v'.isZero := by
  cases hv <;> rfl

theorem unsupported_alike (hh : h.Alike M h') {op : String} (hv : v.Alike M v')
    (hu : u.Alike M u') : unsupported h op v u = unsupported h' op v' u' := by
  rw [unsupported, unsupported, typeName_alike hh hv, typeName_alike hh hu]

theorem arithmetic_unsupported {op : String} {g : Arithmetic}
    (hn : (v.isNumeric && u.isNumeric) = false) :
    arithmetic h op g v u = unsupported h op v u := by
  unfold arithmetic
  split
  · cases hn
  · rw [hn]
    rfl

theorem compare_unsupported {op : String} {o : Order}
    (hn : (v.isNumeric && u.isNumeric) = false) :
    compare h op o v u = unsupported h op v u := by
  unfold compare
  split
  · cases hn
  · rw [hn]
    rfl

/-- Operands that are alike are equal, or neither pair of them are numbers. -/
theorem eq_or_not_isNumeric (hv : v.Alike M v') (hu : u.Alike M u') :
    v = v' ∧ u = u' ∨ (v.isNumeric && u.isNumeric) = false ∧
      (v'.isNumeric && u'.isNumeric) = false := by
  rcases hv.eq_or_not_isScalar with hv | ⟨hv, hv'⟩
  · rcases hu.eq_or_not_isScalar with hu | ⟨hu, hu'⟩
    · exact .inl ⟨hv, hu⟩
    · rw [isNumeric_eq_false hu, isNumeric_eq_false hu', Bool.and_false, Bool.and_false]
      exact .inr ⟨rfl, rfl⟩
  · rw [isNumeric_eq_false hv, isNumeric_eq_false hv', Bool.false_and, Bool.false_and]
    exact .inr ⟨rfl, rfl⟩

theorem arithmetic_alike (hh : h.Alike M h') {op : String} {g : Arithmetic} (hv : v.Alike M v')
    (hu : u.Alike M u') : arithmetic h op g v u = arithmetic h' op g v' u' := by
  -- on numbers the heap does not matter, and on anything else only the names of the types do
  rcases eq_or_not_isNumeric hv hu with ⟨rfl, rfl⟩ | ⟨hn, hn'⟩
  · simp only [arithmetic, promote, unsupported_alike hh hv hu, typeName_alike hh hv,
      typeName_alike hh hu]
  · rw [arithmetic_unsupported hn, arithmetic_unsupported hn', unsupported_alike hh hv hu]

theorem compare_alike (hh : h.Alike M h') {op : String} {o : Order} (hv : v.Alike M v')
    (hu : u.Alike M u') : compare h op o v u = compare h' op o v' u' := by
  rcases eq_or_not_isNumeric hv hu with ⟨rfl, rfl⟩ | ⟨hn, hn'⟩
  · simp only [compare, promote, unsupported_alike hh hv hu, typeName_alike hh hv,
      typeName_alike hh hu]
  · rw [compare_unsupported hn, compare_unsupported hn', unsupported_alike hh hv hu]

theorem typeName_value? {f : Fault} (hf : v.typeName h = .error f) : f.value? = none := by
  rw [typeName_error hf]
  rfl

/-- One name, or the same fault. -/
theorem typeName_endAlike (hh : h.Alike M h') (hv : v.Alike M v') :
    EndAlike (Fault.Alike M) Eq (v.typeName h) (v'.typeName h') := by
  rw [typeName_alike hh hv]
  exact EndAlike.same (fun _ _ => rfl) fun _ hf => .plain (typeName_value? hf)

theorem unsupported_value? {op : String} {f : Fault} (hf : unsupported h op v u = .error f) :
    f.value? = none := by
  rcases bind_error hf with hleft | ⟨left, -, hf⟩
  · exact typeName_value? hleft
  · rcases bind_error hf with hright | ⟨right, -, hf⟩
    · exact typeName_value? hright
    · cases hf
      rfl

theorem promote_value? {op : String} {f : Fault} (hf : promote h op v u = .error f) :
    f.value? = none := by
  unfold promote at hf
  split at hf
  · cases hf
  · rcases bind_error hf with hleft | ⟨left, -, hf⟩
    · exact typeName_value? hleft
    · rcases bind_error hf with hright | ⟨right, -, hf⟩
      · exact typeName_value? hright
      · cases hf
        rfl

/-- Faults of arithmetic are about no value. -/
theorem arithmetic_value? {op : String} {g : Arithmetic} {f : Fault}
    (hf : arithmetic h op g v u = .error f) : f.value? = none := by
  unfold arithmetic at hf
  split at hf
  · rename_i m n
    rcases bind_error hf with hf | ⟨q, -, hf⟩
    · cases g with
      | divide =>
        simp only [Arithmetic.onIntegers, truncatedQuotient] at hf
        split at hf <;> cases hf
        rfl
      | _ => cases hf
    · cases hf
  · split at hf
    · rcases bind_error hf with hf | ⟨p, -, hf⟩
      · exact promote_value? hf
      · rcases bind_error hf with hf | ⟨q, -, hf⟩
        · cases g with
          | divide =>
            simp only [Arithmetic.onReals, realQuotient] at hf
            split at hf <;> cases hf
            rfl
          | _ => cases hf
        · cases hf
    · exact unsupported_value? hf

theorem compare_value? {op : String} {o : Order} {f : Fault}
    (hf : compare h op o v u = .error f) : f.value? = none := by
  unfold compare at hf
  split at hf
  · cases hf
  · split at hf
    · rcases bind_error hf with hf | ⟨p, -, hf⟩
      · exact promote_value? hf
      · cases hf
    · exact unsupported_value? hf

theorem plainText_value? {f : Fault} (hf : v.plainText h = .error f) : f.value? = none := by
  rcases plainText_error hf with rfl | rfl <;> rfl

/-- The same text, or the same fault. -/
theorem plainText_endAlike (hh : h.Alike M h') (hv : v.Alike M v') :
    EndAlike (Fault.Alike M) Eq (v.plainText h) (v'.plainText h') := by
  rw [plainText_alike hh hv]
  exact EndAlike.same (fun _ _ => rfl) fun _ hf => .plain (plainText_value? hf)

theorem applySign_alike (hh : h.Alike M h') {op : String} (hv : v.Alike M v')
    (hu : u.Alike M u') :
    EndAlike (Fault.Alike M) (Value.Alike M) (applySign h op v u) (applySign h' op v' u') := by
  have harithmetic : ∀ {g : Arithmetic}, EndAlike (Fault.Alike M) (Value.Alike M)
      (arithmetic h op g v u) (arithmetic h' op g v' u') := by
    intro g
    rw [arithmetic_alike hh hv hu]
    exact EndAlike.same (fun _ hok => .scalar (arithmetic_ok hok))
      fun _ hf => .plain (arithmetic_value? hf)
  unfold applySign
  rw [isText_alike hv, isText_alike hu, isZero_alike hu, equal_alike hv hu]
  split
  · exact .error (.plain rfl)
  · exact .ok (.scalar rfl)
  · exact .ok (.scalar rfl)
  · rw [compare_alike hh hv hu]
    exact EndAlike.same (fun _ hok => .scalar (compare_ok hok))
      fun _ hf => .plain (compare_value? hf)
  · split
    · refine (plainText_endAlike hh hv).bind ?_
      rintro left _ rfl
      refine (plainText_endAlike hh hu).bind ?_
      rintro right _ rfl
      exact .ok (.scalar rfl)
    · exact harithmetic
  · split
    · refine (plainText_endAlike hh hv).bind ?_
      rintro shown _ rfl
      exact .error (.divisionByZero op shown hv)
    · exact harithmetic
  · exact harithmetic

theorem apply_alike (hh : h.Alike M h') {op : Label} (hv : v.Alike M v') (hu : u.Alike M u') :
    EndAlike (Fault.Alike M) (Value.Alike M) (v.apply h op u) (v'.apply h' op u') := by
  unfold apply
  split
  · exact applySign_alike hh hv hu
  · exact .error (.plain rfl)

end Value

/-! ## Reading and storing -/

namespace Heap

variable {name : Label} {t t' : Value} {is is' : List Value}

/-- Storing alike arrays under matched addresses keeps heaps alike. -/
theorem Alike.set (hh : h.Alike M h') {a b : Nat} (hab : M.array a b) {y y' : ArrayObject}
    (hy : y.Like (Value.Alike M) y') :
    Heap.Alike M (h.setIfInBounds a y) (h'.setIfInBounds b y') := by
  intro c d hcd
  obtain ⟨x, x', hx, hx', -⟩ := hh hab
  rw [getElem?_set hx, getElem?_set hx']
  by_cases hca : c = a
  · rw [if_pos hca, if_pos ((M.array_iff hcd hab).1 hca)]
    exact ⟨y, y', rfl, rfl, hy⟩
  · rw [if_neg hca, if_neg (mt (M.array_iff hcd hab).2 hca)]
    exact hh hcd

/-- The same array added to both heaps, when nothing but its two addresses is newly matched. -/
theorem Alike.push (hh : h.Alike M h') (hM : M.Le M') {x : ArrayObject}
    (hx : ∀ v ∈ x.elements, v = .undefined)
    (hnew : ∀ {a b}, M'.array a b → M.array a b ∨ a = h.size ∧ b = h'.size) :
    Heap.Alike M' (h.push x) (h'.push x) := by
  intro a b hab
  rcases hnew hab with hab | ⟨rfl, rfl⟩
  · obtain ⟨y, y', hy, hy', hlike⟩ := hh hab
    have hlt := (Array.getElem?_eq_some_iff.1 hy).1
    have hlt' := (Array.getElem?_eq_some_iff.1 hy').1
    refine ⟨y, y', ?_, ?_, hlike.imp fun _ _ hv => hv.le hM⟩
    · rw [Array.getElem?_push, if_neg (by omega), hy]
    · rw [Array.getElem?_push, if_neg (by omega), hy']
  · refine ⟨x, x, by simp, by simp, ArrayObject.Like.self fun v hv => ?_⟩
    rw [hx v hv]
    exact .scalar rfl

theorem find_alike (hh : h.Alike M h') (ht : t.Alike M t') :
    EndAlike (Fault.Alike M)
      (fun p q => M.array p.1 q.1 ∧ h[p.1]? = some p.2 ∧ h'[q.1]? = some q.2 ∧
        p.2.Like (Value.Alike M) q.2)
      (find h name t) (find h' name t') := by
  cases ht with
  | scalar hv =>
    cases t with
    | array a => cases hv
    | _ => exact .error (.plain rfl)
  | array ha =>
    obtain ⟨x, x', hx, hx', hlike⟩ := hh ha
    simp only [find, hx, hx']
    exact .ok ⟨ha, hx, hx', hlike⟩
  | routine r hi => exact .error (.plain rfl)
  | builtin id b => exact .error (.plain rfl)

theorem integerIndices_alike (hh : h.Alike M h') (his : List.Forall₂ (Value.Alike M) is is') :
    EndAlike (Fault.Alike M) Eq (integerIndices h name is) (integerIndices h' name is') := by
  induction his with
  | nil => exact .ok rfl
  | @cons v v' rest rest' hv _ ih =>
    cases hv with
    | @scalar v hv =>
      cases v with
      | int n =>
        refine ih.bind ?_
        rintro ns _ rfl
        exact .ok rfl
      | array a => cases hv
      | routine i r => cases hv
      | builtin i b => cases hv
      | _ => exact .error (.indexMismatch name _ (.scalar rfl))
    | array ha =>
      refine (Value.typeName_endAlike hh (.array ha)).bind ?_
      rintro actual _ rfl
      exact .error (.indexMismatch name _ (.array ha))
    | routine r hi => exact .error (.indexMismatch name _ (.routine r hi))
    | builtin id b => exact .error (.indexMismatch name _ (.builtin id b))

/-- Faults of a position are about no value. -/
theorem position_value? {x : ArrayObject} {ns : List Int} {f : Fault}
    (hf : position x name ns = .error f) : f.value? = none := by
  unfold position at hf
  split at hf
  · cases hf
    rfl
  · simp only at hf
    split at hf
    · rcases bind_error hf with hf | ⟨shown, -, hf⟩
      · obtain ⟨n, -, hn⟩ := exists_of_mapM_error hf
        rw [Value.integerText_error hn]
        rfl
      · cases hf
        rfl
    · cases hf

theorem position_alike {x x' : ArrayObject} (hx : x.Like (Value.Alike M) x') (ns : List Int) :
    EndAlike (Fault.Alike M) Eq (position x name ns) (position x' name ns) := by
  have heq : position x' name ns = position x name ns := by
    simp only [position, hx.extents_eq]
  rw [heq]
  exact EndAlike.same (fun _ _ => rfl) fun f hf => .plain (position_value? hf)

theorem locate_alike (hh : h.Alike M h') (ht : t.Alike M t')
    (his : List.Forall₂ (Value.Alike M) is is') :
    EndAlike (Fault.Alike M)
      (fun p q => M.array p.1 q.1 ∧ p.2.1.Like (Value.Alike M) q.2.1 ∧ p.2.2 = q.2.2)
      (locate h name t is) (locate h' name t' is') := by
  refine (find_alike hh ht).bind ?_
  rintro ⟨a, x⟩ ⟨b, x'⟩ ⟨hab, -, -, hlike⟩
  refine (integerIndices_alike hh his).bind ?_
  rintro ns _ rfl
  refine (position_alike hlike ns).bind ?_
  rintro ⟨i, j⟩ _ rfl
  exact .ok ⟨hab, hlike, rfl⟩

theorem read_alike (hh : h.Alike M h') (ht : t.Alike M t')
    (his : List.Forall₂ (Value.Alike M) is is') :
    EndAlike (Fault.Alike M) (Value.Alike M) (read h name t is) (read h' name t' is') := by
  refine (locate_alike hh ht his).bind ?_
  rintro ⟨a, x, i, j⟩ ⟨b, x', _, _⟩ ⟨-, hlike, heq⟩
  cases heq
  exact hlike.get

theorem write_alike (hh : h.Alike M h') (ht : t.Alike M t')
    (his : List.Forall₂ (Value.Alike M) is is') (hv : v.Alike M v') :
    EndAlike (Fault.Alike M) (fun g g' => g.size = h.size ∧ g'.size = h'.size ∧ g.Alike M g')
      (write h name t is v) (write h' name t' is' v') := by
  refine (locate_alike hh ht his).bind ?_
  rintro ⟨a, x, i, j⟩ ⟨b, x', _, _⟩ ⟨hab, hlike, heq⟩
  cases heq
  refine (hlike.put hv).bind ?_
  intro y y' hy
  exact .ok ⟨Array.size_setIfInBounds, Array.size_setIfInBounds, hh.set hab hy⟩

/-- Faults of a place to fill are about no value. -/
theorem fillPosition_value? {x : ArrayObject} {index : Int} {f : Fault}
    (hf : x.fillPosition index = .error f) : f.value? = none := by
  unfold ArrayObject.fillPosition at hf
  simp only at hf
  split at hf <;> cases hf
  rfl

theorem arrayFill_alike (hh : h.Alike M h') {x x' : ArrayObject}
    (hx : x.Like (Value.Alike M) x') (name : Label) (index : Int)
    (hv : v.Alike M v') :
    EndAlike (Fault.Alike M) (ArrayObject.Like (Value.Alike M)) (x.fill h name index v)
      (x'.fill h' name index v') := by
  have htag : v'.hasTag x.elem = v.hasTag x.elem := by
    cases hv <;> rfl
  simp only [ArrayObject.fill, hx.elem_eq, htag, Value.typeName_alike hh hv]
  split
  · have hposition : x'.fillPosition index = x.fillPosition index := by
      simp only [ArrayObject.fillPosition, hx.extents_eq]
    rw [hposition]
    refine EndAlike.bind (R := Eq) (EndAlike.same (fun _ _ => rfl) fun f hf =>
      .plain (fillPosition_value? hf)) ?_
    rintro ⟨i, j⟩ _ rfl
    exact hx.put hv
  · refine EndAlike.bind (R := Eq) (EndAlike.same (fun _ _ => rfl) fun f hf =>
      .plain (Value.typeName_value? hf)) ?_
    rintro actual _ rfl
    exact .error (.plain rfl)

theorem fill_alike (hh : h.Alike M h') {a b : Nat} (hab : M.array a b) {index : Int}
    (hv : v.Alike M v') :
    EndAlike (Fault.Alike M) (fun g g' => g.size = h.size ∧ g'.size = h'.size ∧ g.Alike M g')
      (fill h name a index v) (fill h' name b index v') := by
  obtain ⟨x, x', hx, hx', hlike⟩ := hh hab
  simp only [fill, update, hx, hx']
  have hfill := arrayFill_alike hh hlike name index hv
  generalize x.fill h name index v = l at hfill ⊢
  generalize x'.fill h' name index v' = r at hfill ⊢
  cases hfill with
  | ok hy => exact .ok ⟨Array.size_setIfInBounds, Array.size_setIfInBounds, hh.set hab hy⟩
  | error hf => exact .error hf

end Heap

end MiniAlgol
