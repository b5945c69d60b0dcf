import MiniAlgol.Proofs.Heap.Shape
import MiniAlgol.Proofs.Run.Arithmetic

/-!
# Reading and writing by address

Indices address a row and a column (`addressOf`), in an array of one extent as in one of two. What
reading and writing do depends on that address only: both succeed exactly within the extents, and
after a write the same address has the new value while every other one, in this array and in the
others, has what it had (`reads_and_writes_by_address`). Whether an address is within the extents
is settled before anything is stored, so a write that fails has done nothing.
-/

namespace MiniAlgol

open MiniAlgol.Action

/-- The row and the column that indices address. Without a second index it is the first column,
and indices after the second are not looked at. -/
def addressOf : List Int → Option (Int × Int)
  | [] => none
  | i :: rest => some (i, rest.head?.getD 0)

theorem mapM_integerText {ns : List Int} (hshort : ∀ n ∈ ns, n.natAbs < Numeral.writeBound) :
    ns.mapM integerText = .ok (ns.map toString) := by
  induction ns with
  | nil => rfl
  | cons n ns ih =>
    rw [List.mapM_cons, integerText_eq (hshort n List.mem_cons_self), ok_bind,
      ih fun k hk => hshort k (List.mem_cons_of_mem n hk)]
    rfl

instance {x : ArrayObject} {i j : Int} : Decidable (x.InRange i j) :=
  inferInstanceAs (Decidable (_ ∧ _))

namespace Heap

variable {heap : Heap} {name : Label} {a : Nat} {x x' : ArrayObject} {ns : List Int} {i j : Int}

/-! ## Where indices lead -/

theorem integerIndices_map (heap : Heap) (name : Label) (ns : List Int) :
    integerIndices heap name (ns.map Value.int) = .ok ns := by
  induction ns with
  | nil => rfl
  | cons n ns ih =>
    rw [List.map_cons, integerIndices, ih]
    rfl

theorem position_ok_iff {p : Int × Int} :
    position x name ns = .ok p ↔ addressOf ns = some p ∧ x.InRange p.1 p.2 := by
  cases ns with
  | nil =>
    constructor
    · intro h
      cases h
    · rintro ⟨h, -⟩
      cases h
  | cons i rest =>
    constructor
    · intro h
      have hr := position_ok h
      simp only [position] at h
      split at h
      · obtain ⟨shown, -, h⟩ := bind_ok h
        cases h
      · cases h
        exact ⟨rfl, hr⟩
    · rintro ⟨h, hr⟩
      cases h
      obtain ⟨hi, hilt, hj, hjlt⟩ := hr
      simp only [position]
      rw [if_neg (by omega)]

/-- Beyond the extents the fault shows the indices, and the extents that were exceeded. -/
theorem position_beyond (hns : addressOf ns = some (i, j)) (hr : ¬ x.InRange i j)
    (hshort : ∀ n ∈ ns, n.natAbs < Numeral.writeBound) :
    position x name ns = .error
      (.indexOutOfBounds name ns (", ".intercalate (ns.map toString)) x.extents.1 x.extents.2) := by
  cases ns with
  | nil => cases hns
  | cons n rest =>
    cases hns
    simp only [position]
    rw [if_pos (by simp only [ArrayObject.InRange] at hr; omega), mapM_integerText hshort]
    rfl

/-- The extents are all that indices are held against. -/
theorem position_congr (h : x'.extents = x.extents) :
    position x' name ns = position x name ns := by
  unfold position
  rw [h]

theorem locate_array (hx : heap[a]? = some x) :
    locate heap name (.array a) (ns.map Value.int)
      = (do let p ← position x name ns; return (a, x, p)) := by
  simp only [locate, find, hx, ok_bind, integerIndices_map]

theorem read_array (hx : heap[a]? = some x) :
    read heap name (.array a) (ns.map Value.int)
      = (do let p ← position x name ns; x.get p.1 p.2) := by
  rw [read, locate_array hx, bind_assoc]
  rfl

theorem write_array (hx : heap[a]? = some x) (v : Value) :
    write heap name (.array a) (ns.map Value.int) v
      = (do let p ← position x name ns; return heap.setIfInBounds a (← x.put p.1 p.2 v)) := by
  rw [write, locate_array hx, bind_assoc]
  rfl

/-! ## Reading after writing -/

/-- After a store in one array, reading any array by any indices. -/
theorem read_set (hx : heap[a]? = some x) (hshaped : x.Shaped) (hr : x.InRange i j) {v : Value}
    (hput : x.put i j v = .ok x') (name : Label) (b : Nat) (ms : List Int) :
    read (heap.setIfInBounds a x') name (.array b) (ms.map Value.int) =
      if b = a ∧ addressOf ms = some (i, j) then .ok v
      else read heap name (.array b) (ms.map Value.int) := by
  by_cases hb : b = a
  · subst hb
    have hx' : (heap.setIfInBounds b x')[b]? = some x' := by rw [getElem?_set hx, if_pos rfl]
    rw [read_array hx', read_array hx, position_congr (ArrayObject.shape_put hput).2]
    cases hp : position x name ms with
    | error f =>
      have hne : ¬ (b = b ∧ addressOf ms = some (i, j)) := by
        rintro ⟨-, haddress⟩
        rw [position_ok_iff.2 ⟨haddress, hr⟩] at hp
        cases hp
      rw [if_neg hne]
      rfl
    | ok p =>
      obtain ⟨haddress, hrange⟩ := position_ok_iff.1 hp
      rw [ok_bind, ok_bind, hshaped.get_put hr hput hrange]
      simp only [haddress, Option.some.injEq, Prod.ext_iff, true_and]
  · rw [if_neg fun h => hb h.1]
    cases hy : heap[b]? with
    | none =>
      simp only [read, locate, find, notArray, Value.typeName, getElem?_set hx, if_neg hb, hy]
      rfl
    | some y =>
      have hy' : (heap.setIfInBounds a x')[b]? = some y := by
        rw [getElem?_set hx, if_neg hb, hy]
      rw [read_array hy', read_array hy]

end Heap

/-- Indices that address a row and a column within the extents can be read and written, and a write
gives a new value to that address of that array and to no other. Indices that lead beyond the
extents are refused by both, and nothing is changed. Every array that a program makes has an
element at each position within its extents, as is asked for here. -/
theorem reads_and_writes_by_address {m : Machine} {a : Nat} {x : ArrayObject} {ns : List Int}
    {i j : Int} (hx : m.heap[a]? = some x) (hshaped : x.Shaped)
    (hns : addressOf ns = some (i, j)) (hshort : ∀ n ∈ ns, n.natAbs < Numeral.writeBound)
    (name : Label) (v : Value) :
    (x.InRange i j →
      (∃ u, (readElement name (.array a) (ns.map .int)).on m = (.ok u, m)) ∧
      ∃ heap, (changeHeap fun h => Heap.write h name (.array a) (ns.map .int) v).on m
          = (.ok (), { m with heap }) ∧
        ∀ name' (b : Nat) ms, Heap.read heap name' (.array b) (ms.map .int) =
          if b = a ∧ addressOf ms = some (i, j) then .ok v
          else Heap.read m.heap name' (.array b) (ms.map .int)) ∧
    (¬ x.InRange i j →
      let fault := Fault.indexOutOfBounds name ns (", ".intercalate (ns.map toString))
        x.extents.1 x.extents.2
      (readElement name (.array a) (ns.map .int)).on m = (.error (.fault fault), m) ∧
      (changeHeap fun h => Heap.write h name (.array a) (ns.map .int) v).on m
        = (.error (.fault fault), m)) := by
  constructor
  · intro hr
    have hp : Heap.position x name ns = .ok (i, j) := Heap.position_ok_iff.2 ⟨hns, hr⟩
    obtain ⟨u, hget⟩ := hshaped.exists_get hr
    obtain ⟨x', hput⟩ := hshaped.exists_put hr v
    have hread : Heap.read m.heap name (.array a) (ns.map .int) = .ok u := by
      rw [Heap.read_array hx, hp]
      exact hget
    have hwrite : Heap.write m.heap name (.array a) (ns.map .int) v
        = .ok (m.heap.setIfInBounds a x') := by
      rw [Heap.write_array hx, hp, ok_bind, hput]
      rfl
    refine ⟨⟨u, ?_⟩, m.heap.setIfInBounds a x', ?_, Heap.read_set hx hshaped hr hput⟩
    · simp only [readElement, on_bind, on_get, hread, on_lift_ok]
    · simp only [changeHeap, on_bind, on_get, hwrite, on_lift_ok, on_modify]
  · intro hr fault
    have hp : Heap.position x name ns = .error fault := Heap.position_beyond hns hr hshort
    have hread : Heap.read m.heap name (.array a) (ns.map .int) = .error fault := by
      rw [Heap.read_array hx, hp]
      rfl
    have hwrite : Heap.write m.heap name (.array a) (ns.map .int) v = .error fault := by
      rw [Heap.write_array hx, hp]
      rfl
    constructor
    · simp only [readElement, on_bind, on_get, hread, on_lift_error]
    · simp only [changeHeap, on_bind, on_get, hwrite, on_lift_error]

/-- A machine with an array of one extent and an array of two. -/
def twoArrays : Machine where
  heap := #[.line .int #[.int 1, .undefined, .int 3], .grid .int 1 2 #[#[.int 4, .int 5]]]

/-- What is written with one index is read with two, and a second column is refused. -/
theorem reads_and_writes_by_address_column :
    (∃ heap, (changeHeap fun h => Heap.write h "a" (.array 0) [.int 1] (.bool true)).on twoArrays
        = (.ok (), { twoArrays with heap }) ∧
      Heap.read heap "b" (.array 0) [.int 1, .int 0] = .ok (.bool true) ∧
      Heap.read heap "b" (.array 1) [.int 0, .int 1] = .ok (.int 5)) ∧
    (changeHeap fun h => Heap.write h "a" (.array 0) [.int 1, .int 1] (.bool true)).on twoArrays
      = (.error (.fault (.indexOutOfBounds "a" [1, 1] "1, 1" 3 1)), twoArrays) := by
  have hone : (1 : Int).natAbs < Numeral.writeBound :=
    Numeral.lt_writeBound (by decide : 1 ≤ Numeral.maxDigits) (by decide)
  have hcell : addressOf [1] = some (1, 0) := rfl
  have hside : addressOf [1, 1] = some (1, 1) := rfl
  have hin := (reads_and_writes_by_address (m := twoArrays) (a := 0) rfl trivial hcell
    (by simpa using hone) "a" (.bool true)).1 (by decide)
  have hbeyond := (reads_and_writes_by_address (m := twoArrays) (a := 0) rfl trivial hside
    (by simpa using hone) "a" (.bool true)).2 (by decide)
  obtain ⟨-, heap, hwrite, hread⟩ := hin
  refine ⟨⟨heap, hwrite, ?_, ?_⟩, hbeyond.2⟩
  · exact hread "b" 0 [1, 0]
  · exact hread "b" 1 [0, 1]

end MiniAlgol
