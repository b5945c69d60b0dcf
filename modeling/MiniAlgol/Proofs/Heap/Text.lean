import MiniAlgol.Proofs.Except
import MiniAlgol.Proofs.Heap.Elements
import MiniAlgol.Value.Listing
import Mathlib.Data.Fintype.Pigeonhole

/-!
# Texts of values

How the texts of values can fail. A listing fails only on an integer with too many digits, and the
name of a type only on an extent with too many. A plain text may also have no end, and does so only
where an array holds itself (`exists_cycle_of_plainText`).

The plain text is made with as much fuel as there are arrays. `textWithin_eq_plainText` shows that
more fuel gives the same: an array whose text needs `n` levels holds one that needs `n - 1`, so
there are at least as many arrays as levels.
-/

namespace MiniAlgol

namespace Value

variable {each each' : Value → Except Fault String} {x : ArrayObject} {f e : Fault}

theorem exists_of_elementTexts_error (h : elementTexts each x = .error f) :
    ∃ v ∈ x.elements, each v = .error f := by
  cases x with
  | line elem items =>
    rcases bind_error h with ht | ⟨texts, -, h⟩
    · exact exists_of_mapM_error ht
    · cases h
  | grid elem rows cols cells =>
    rcases bind_error h with ht | ⟨texts, -, h⟩
    · obtain ⟨row, hrow, hfail⟩ := exists_of_mapM_error ht
      rcases bind_error hfail with hr | ⟨texts, -, hfail⟩
      · obtain ⟨v, hv, heach⟩ := exists_of_mapM_error hr
        exact ⟨v, List.mem_flatMap.2 ⟨row, hrow, hv⟩, heach⟩
      · cases hfail
    · cases h

theorem elementTexts_congr {x' : ArrayObject}
    (h : ArrayObject.Like (fun v v' => each v = each' v') x x') :
    elementTexts each x = elementTexts each' x' := by
  cases h with
  | line h =>
    simp only [elementTexts]
    rw [mapM_congr₂ h]
  | grid h =>
    simp only [elementTexts]
    congr 1
    refine mapM_congr₂ (h.imp fun row row' hrow => ?_)
    rw [mapM_congr₂ hrow]

theorem elementTexts_eq_of_ne_error
    (h : ∀ v ∈ x.elements, each v ≠ .error e → each' v = each v)
    (hne : elementTexts each x ≠ .error e) : elementTexts each' x = elementTexts each x := by
  cases x with
  | line elem items =>
    simp only [elementTexts] at hne ⊢
    congr 1
    refine mapM_eq_of_ne_error (e := e) h ?_
    intro ht
    rw [ht] at hne
    exact hne rfl
  | grid elem rows cols cells =>
    simp only [elementTexts] at hne ⊢
    congr 1
    refine mapM_eq_of_ne_error (e := e) (fun row hrow hrowne => ?_) ?_
    · rw [mapM_eq_of_ne_error fun v hv => h v (List.mem_flatMap.2 ⟨row, hrow, hv⟩)]
      intro ht
      rw [ht] at hrowne
      exact hrowne rfl
    · intro ht
      rw [ht] at hne
      exact hne rfl

/-! ## How texts fail -/

theorem integerText_error {n : Int} (h : integerText n = .error f) :
    f = .numeral .tooLongToWrite := by
  unfold integerText Numeral.writeInteger at h
  split at h
  · cases h
  · rename_i e he
    split at he
    · cases he
    · cases he
      cases h
      rfl

theorem arrayListing_error {elements : String} (h : arrayListing x elements = .error f) :
    f = .numeral .tooLongToWrite := by
  cases x with
  | line elem items => cases h
  | grid elem rows cols cells =>
    rcases bind_error h with hr | ⟨r, -, h⟩
    · exact integerText_error hr
    · rcases bind_error h with hc | ⟨c, -, h⟩
      · exact integerText_error hc
      · cases h

theorem arrayTypeName_error (h : x.typeName = .error f) : f = .numeral .tooLongToWrite := by
  cases x with
  | line elem items => cases h
  | grid elem rows cols cells =>
    rcases bind_error h with hr | ⟨r, -, h⟩
    · exact integerText_error hr
    · rcases bind_error h with hc | ⟨c, -, h⟩
      · exact integerText_error hc
      · cases h

theorem listingWithin_error {heap : Heap} {fuel : Nat} {around : List Nat} {v : Value}
    (h : listingWithin heap fuel around v = .error f) : f = .numeral .tooLongToWrite := by
  induction fuel generalizing around v with
  | zero =>
    cases v with
    | int m =>
      simp only [listingWithin] at h
      exact integerText_error h
    | _ => cases h
  | succ fuel ih =>
    cases v with
    | array address =>
      simp only [listingWithin] at h
      split at h
      · cases h
      · split at h
        · exact arrayListing_error h
        · rcases bind_error h with he | ⟨elements, -, h⟩
          · obtain ⟨u, -, hu⟩ := exists_of_elementTexts_error he
            exact ih hu
          · exact arrayListing_error h
    | int m =>
      simp only [listingWithin] at h
      exact integerText_error h
    | _ => cases h

/-- A listing fails only on an integer that is too long. -/
theorem listing_error {heap : Heap} {v : Value} (h : v.listing heap = .error f) :
    f = .numeral .tooLongToWrite :=
  listingWithin_error h

theorem listings_error {heap : Heap} {vs : List Value} (h : listings heap vs = .error f) :
    f = .numeral .tooLongToWrite := by
  rcases bind_error h with ht | ⟨texts, -, h⟩
  · obtain ⟨v, -, hv⟩ := exists_of_mapM_error ht
    exact listing_error hv
  · cases h

variable {heap : Heap} {n : Nat} {v : Value}

/-- Only the name of the type of an array can fail. -/
theorem exists_typeName (hv : ∀ a x, v = .array a → heap[a]? ≠ some x) :
    ∃ name, v.typeName heap = .ok name := by
  cases v with
  | array a =>
    have hnone : heap[a]? = none := Option.eq_none_iff_forall_ne_some.2 fun x => hv a x rfl
    exact ⟨"array", by simp only [typeName, hnone]⟩
  | _ => exact ⟨_, rfl⟩

/-- The name of a type fails only on an extent that is too long. -/
theorem typeName_error (h : v.typeName heap = .error f) : f = .numeral .tooLongToWrite := by
  cases v with
  | array a =>
    simp only [typeName] at h
    split at h
    · exact arrayTypeName_error h
    · cases h
  | _ => cases h

/-- The text of an array, one level down. -/
theorem textWithin_array {a : Nat} (hx : heap[a]? = some x) :
    textWithin heap (n + 1) (.array a) = elementTexts (textWithin heap n) x := by
  simp only [textWithin, hx]

theorem textWithin_error (h : textWithin heap n v = .error f) :
    f = .numeral .tooLongToWrite ∨ f = .endlessText := by
  induction n generalizing v with
  | zero =>
    cases v with
    | int m =>
      simp only [textWithin] at h
      exact .inl (integerText_error h)
    | array a => cases h; exact .inr rfl
    | _ => cases h
  | succ n ih =>
    cases v with
    | int m =>
      simp only [textWithin] at h
      exact .inl (integerText_error h)
    | array a =>
      simp only [textWithin] at h
      split at h
      · cases h
        exact .inr rfl
      · obtain ⟨u, -, hu⟩ := exists_of_elementTexts_error h
        exact ih hu
    | _ => cases h

/-- A plain text fails on an integer that is too long, or for having no end. -/
theorem plainText_error (h : v.plainText heap = .error f) :
    f = .numeral .tooLongToWrite ∨ f = .endlessText :=
  textWithin_error h

/-! ## Texts without an end -/

/-- A text that has no end within `n` levels goes down a path of `n` arrays. -/
theorem exists_path_of_textWithin
    (hclosed : ∀ a b, heap.Holds a b → b < heap.size) (hv : ∀ a, v = .array a → a < heap.size)
    (h : textWithin heap n v = .error .endlessText) :
    ∃ path : Nat → Nat, v = .array (path 0) ∧ ∀ i < n, heap.Holds (path i) (path (i + 1)) := by
  induction n generalizing v with
  | zero =>
    cases v with
    | array a => exact ⟨fun _ => a, rfl, fun i hi => absurd hi (Nat.not_lt_zero i)⟩
    | int m =>
      simp only [textWithin] at h
      cases integerText_error h
    | _ => cases h
  | succ n ih =>
    cases v with
    | int m =>
      simp only [textWithin] at h
      cases integerText_error h
    | array a =>
      have hlt : a < heap.size := hv a rfl
      have hx : heap[a]? = some heap[a] := Array.getElem?_eq_getElem hlt
      rw [textWithin_array hx] at h
      -- one of the elements has no end a level down, and the path goes on there
      obtain ⟨u, hu, hutext⟩ := exists_of_elementTexts_error h
      have hheld : ∀ b, u = .array b → heap.Holds a b := by
        rintro b rfl
        exact ⟨heap[a], hx, hu⟩
      obtain ⟨path, hstart, hpath⟩ := ih (fun b hb => hclosed a b (hheld b hb)) hutext
      refine ⟨fun i => if i = 0 then a else path (i - 1), rfl, fun i hi => ?_⟩
      rcases Nat.eq_zero_or_pos i with rfl | hpos
      · exact hheld _ hstart
      · have hstep := hpath (i - 1) (by omega)
        rw [show i - 1 + 1 = i from by omega] at hstep
        simpa [Nat.ne_of_gt hpos] using hstep
    | _ => cases h

theorem transGen_of_path {path : Nat → Nat} (hpath : ∀ i < n, heap.Holds (path i) (path (i + 1)))
    {i j : Nat} (hij : i < j) (hj : j ≤ n) :
    Relation.TransGen heap.Holds (path i) (path j) := by
  induction j, hij using Nat.le_induction with
  | base => exact .single (hpath i (by omega))
  | succ j hij ih => exact .tail (ih (by omega)) (hpath j (by omega))

/-- A plain text without an end comes from an array that holds itself, at some depth. -/
theorem exists_cycle_of_plainText (hclosed : ∀ a b, heap.Holds a b → b < heap.size)
    (hv : ∀ a, v = .array a → a < heap.size) (h : v.plainText heap = .error .endlessText) :
    ∃ a, Relation.TransGen heap.Holds a a := by
  obtain ⟨path, hstart, hpath⟩ := exists_path_of_textWithin hclosed hv h
  have hlt : ∀ i ≤ heap.size, path i < heap.size := by
    intro i hi
    cases i with
    | zero => exact hv _ hstart
    | succ i => exact hclosed _ _ (hpath i (by omega))
  -- one more array on the path than there are in the heap, so one of them comes twice
  obtain ⟨i, j, hne, heq⟩ := Fintype.exists_ne_map_eq_of_card_lt
    (fun i : Fin (heap.size + 1) => (⟨path i, hlt i (by omega)⟩ : Fin heap.size)) (by simp)
  have hpathEq : path i = path j := congrArg Fin.val heq
  rcases Nat.lt_or_gt_of_ne (fun h => hne (Fin.ext h)) with hij | hij
  · have hcycle := transGen_of_path hpath hij (by omega)
    rw [hpathEq] at hcycle
    exact ⟨_, hcycle⟩
  · have hcycle := transGen_of_path hpath hij (by omega)
    rw [hpathEq] at hcycle
    exact ⟨_, hcycle⟩

/-! ## How much fuel a text needs -/

theorem textWithin_succ (h : textWithin heap n v ≠ .error .endlessText) :
    textWithin heap (n + 1) v = textWithin heap n v := by
  induction n generalizing v with
  | zero =>
    cases v with
    | array a => exact absurd rfl h
    | _ => simp only [textWithin]
  | succ n ih =>
    cases v with
    | array a =>
      cases hx : heap[a]? with
      | none =>
        simp only [textWithin, hx] at h
        exact absurd rfl h
      | some x =>
        -- every element had its text, and keeps it
        rw [textWithin_array hx] at h ⊢
        rw [textWithin_array hx]
        exact elementTexts_eq_of_ne_error (fun u _ hu => ih hu) h
    | _ => simp only [textWithin]

theorem textWithin_mono {k : Nat} (hk : n ≤ k) (h : textWithin heap n v ≠ .error .endlessText) :
    textWithin heap k v = textWithin heap n v := by
  induction k, hk using Nat.le_induction with
  | base => rfl
  | succ k hk ih =>
    rw [textWithin_succ, ih]
    rw [ih]
    exact h

/-- The text of the array needs this many levels and one more. -/
def Needs (heap : Heap) (n a : Nat) : Prop :=
  textWithin heap n (.array a) = .error .endlessText ∧
    textWithin heap (n + 1) (.array a) ≠ .error .endlessText

theorem lt_size_of_needs {a : Nat} (h : Needs heap n a) : a < heap.size := by
  by_contra hge
  have hnone : heap[a]? = none := Array.getElem?_eq_none (by omega)
  exact h.2 (by simp only [textWithin, hnone])

/-- An array that needs a level more holds one that does not. -/
theorem exists_needs_of_succ {a : Nat} (h : Needs heap (n + 1) a) : ∃ b, Needs heap n b := by
  have hlt : a < heap.size := lt_size_of_needs h
  have hx : heap[a]? = some heap[a] := Array.getElem?_eq_getElem hlt
  obtain ⟨hends, hdone⟩ := h
  rw [textWithin_array hx] at hends hdone
  by_contra hnone
  refine hdone ?_
  rw [← hends]
  refine elementTexts_congr (ArrayObject.Like.self fun u _ => ?_)
  -- what has no end within `n` levels has none within one more, as nothing needs just that
  by_cases hu : textWithin heap n u = .error .endlessText
  · cases u with
    | array b =>
      by_contra hne
      exact hnone ⟨b, hu, by rw [← hu]; exact hne⟩
    | _ => simp only [textWithin]
  · exact textWithin_succ hu

theorem exists_needs {a k : Nat} (h : Needs heap n a) (hk : k ≤ n) : ∃ b, Needs heap k b := by
  induction n, hk using Nat.le_induction generalizing a with
  | base => exact ⟨a, h⟩
  | succ n hk ih =>
    obtain ⟨b, hb⟩ := exists_needs_of_succ h
    exact ih hb

/-- No array needs more levels than there are arrays. -/
theorem lt_size_of_needs_levels {a : Nat} (h : Needs heap n a) : n < heap.size := by
  have hall : ∀ k : Fin (n + 1), ∃ b, Needs heap k b := fun k => exists_needs h (by omega)
  choose level hlevel using hall
  -- with as many levels as arrays, some array would need two of them
  by_contra hge
  obtain ⟨i, j, hne, heq⟩ := Fintype.exists_ne_map_eq_of_card_lt
    (fun k : Fin (n + 1) => (⟨level k, lt_size_of_needs (hlevel k)⟩ : Fin heap.size))
    (by simp; omega)
  have hlevelEq : level i = level j := congrArg Fin.val heq
  -- an array that needs `i` levels has its text within any `j > i`
  have hapart : ∀ {i j b : Nat}, Needs heap i b → Needs heap j b → ¬ i < j := by
    intro i j b hi hj hij
    refine hi.2 ?_
    rw [← textWithin_mono hij hi.2]
    exact hj.1
  have hi := hlevel i
  rw [hlevelEq] at hi
  rcases Nat.lt_or_gt_of_ne (fun h => hne (Fin.ext h)) with hij | hij
  · exact hapart hi (hlevel j) hij
  · exact hapart (hlevel j) hi hij

/-- More fuel than there are arrays gives the plain text. -/
theorem textWithin_eq_plainText (hn : heap.size ≤ n) : textWithin heap n v = v.plainText heap := by
  unfold plainText
  induction n, hn using Nat.le_induction with
  | base => rfl
  | succ n hn ih =>
    rw [← ih]
    by_cases hend : textWithin heap n v = .error .endlessText
    · cases v with
      | array a =>
        by_contra hne
        have hneeds : Needs heap n a := ⟨hend, by rw [← hend]; exact hne⟩
        exact absurd (lt_size_of_needs_levels hneeds) (by omega)
      | _ => simp only [textWithin]
    · exact textWithin_succ hend

end Value

end MiniAlgol
