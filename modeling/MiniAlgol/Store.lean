import MiniAlgol.Value.Listing

/-!
Arrays in the heap: allocation, reading, writing, and filling from an initializer.

Both shapes share one addressing rule. An array with one extent is a single column, so it may be
given a second index of zero, and an array with two extents given one index means column zero. An
initializer fills column after column.
-/

namespace MiniAlgol

/-- Whether a number fits a signed machine word, as lengths and indices must. What lies outside is
refused, even where it is negative and nothing would be stored. That there may be no memory for a
list of such a length is left out. -/
def isLength (n : Int) : Bool :=
  -0x8000000000000000 ≤ n && n < 0x8000000000000000

/-- A column or row of undefined elements; a negative length gives none. -/
def undefinedCells (length : Int) : Array Value :=
  Array.replicate length.toNat .undefined

/-- The position of an index in a list of this length, where negative indices count from the
end. -/
def wrapIndex (length : Nat) (i : Int) : Option (Fin length) :=
  let j := if i < 0 then i + length else i
  if h : 0 ≤ j ∧ j < length then some ⟨j.toNat, by omega⟩ else none

/-- The position of an index that must be there, and the fault when it is not. -/
def placeOf (missing : Fault) (length : Nat) (i : Int) : Except Fault (Fin length) :=
  match wrapIndex length i with
  | some k => .ok k
  | none => .error (if isLength i then missing else .indexOutOfRange)

namespace ArrayObject

/-- A new array. Extents may be negative, as nothing stops a tree from saying so; without rows the
other extent is not looked at. -/
def allocate (elem : Tag) : List Int → Except Fault ArrayObject
  | [length] =>
    if isLength length then .ok (.line elem (undefinedCells length))
    else .error .extentOutOfRange
  | [rows, cols] =>
    if rows ≤ 0 then .ok (.grid elem rows cols #[])
    else if isLength cols then
      .ok (.grid elem rows cols (Array.replicate rows.toNat (undefinedCells cols)))
    else .error .extentOutOfRange
  | extents => .error (.extentCount extents.length)

def get (a : ArrayObject) (i j : Int) : Except Fault Value :=
  match a with
  | line _ items => do
    let ⟨k, _⟩ ← placeOf .noElement items.size i
    return items[k]
  | grid _ _ _ cells => do
    let ⟨k, _⟩ ← placeOf .noElement cells.size i
    let ⟨l, _⟩ ← placeOf .noElement cells[k].size j
    return cells[k][l]

/-- The array with another element at a position. -/
def put (a : ArrayObject) (i j : Int) (v : Value) : Except Fault ArrayObject :=
  match a with
  | line elem items => do
    let k ← placeOf .noElementToReplace items.size i
    return line elem (items.set k v)
  | grid elem rows cols cells => do
    let ⟨k, _⟩ ← placeOf .noElement cells.size i
    let l ← placeOf .noElementToReplace cells[k].size j
    return grid elem rows cols (cells.modify k fun row => row.setIfInBounds l v)

/-- Storing an element changes neither the element type nor the extents. -/
theorem shape_put {a a' : ArrayObject} {i j : Int} {v : Value} (h : a.put i j v = .ok a') :
    a'.elem = a.elem ∧ a'.extents = a.extents := by
  cases a with
  | line elem items =>
    simp only [put, bind, Except.bind, pure, Except.pure] at h
    split at h
    · cases h
    · cases h
      simp [ArrayObject.elem, extents]
  | grid elem rows cols cells =>
    simp only [put, bind, Except.bind, pure, Except.pure] at h
    split at h
    · cases h
    · split at h
      · cases h
      · cases h
        simp [ArrayObject.elem, extents]

/-- Refuses more initial elements than the array holds. -/
def checkCapacity (a : ArrayObject) (name : Label) (count : Int) : Except Fault Unit :=
  if a.capacity < count then do
    let _ ← integerText a.capacity
    let _ ← integerText count
    .error (.sizeExceeded name a.capacity count)
  else .ok ()

/-- The position that an initializer fills at its `index`-th element. -/
def fillPosition (a : ArrayObject) (index : Int) : Except Fault (Int × Int) :=
  let rows := a.extents.1
  if rows = 0 then .error .noRows else .ok (Int.fmod index rows, Int.fdiv index rows)

/-- The array with an initial element stored. Only here is the element type checked. -/
def fill (heap : Heap) (a : ArrayObject) (name : Label) (index : Int) (v : Value) :
    Except Fault ArrayObject :=
  if v.hasTag a.elem then do
    let (i, j) ← a.fillPosition index
    a.put i j v
  else do
    let actual ← v.typeName heap
    .error (.elementMismatch name index a.elem actual)

end ArrayObject

namespace Heap

/-- Refuses a value in the place of an array. -/
def notArray (heap : Heap) (name : Label) (target : Value) :
    Except Fault (Nat × ArrayObject) := do
  let actual ← target.typeName heap
  .error (.notArray name actual)

/-- An array value with its address and content. -/
def find (heap : Heap) (name : Label) (target : Value) : Except Fault (Nat × ArrayObject) :=
  match target with
  | .array address =>
    match heap[address]? with
    | some a => .ok (address, a)
    | none => notArray heap name target
  | _ => notArray heap name target

/-- The integers among indices, all of which must be. -/
def integerIndices (heap : Heap) (name : Label) : List Value → Except Fault (List Int)
  | [] => .ok []
  | .int n :: rest => return n :: (← integerIndices heap name rest)
  | v :: _ => do
    let actual ← v.typeName heap
    .error (.indexMismatch name v actual)

/-- The position that indices address in an array. The second index may be left out, and indices
after the second are ignored. -/
def position (a : ArrayObject) (name : Label) (indices : List Int) : Except Fault (Int × Int) :=
  match indices with
  | [] => .error .noElement
  | i :: rest =>
    let j := rest.head?.getD 0
    let (rows, cols) := a.extents
    if i < 0 ∨ rows ≤ i ∨ j < 0 ∨ cols ≤ j then do
      let shown ← indices.mapM integerText
      .error (.indexOutOfBounds name indices (", ".intercalate shown) rows cols)
    else .ok (i, j)

/-- Finds the array and the position in it that a name, its value and indices stand for. -/
def locate (heap : Heap) (name : Label) (target : Value) (indices : List Value) :
    Except Fault (Nat × ArrayObject × Int × Int) := do
  let (address, a) ← find heap name target
  let integers ← integerIndices heap name indices
  let (i, j) ← position a name integers
  return (address, a, i, j)

def read (heap : Heap) (name : Label) (target : Value) (indices : List Value) :
    Except Fault Value := do
  let (_, a, i, j) ← locate heap name target indices
  a.get i j

def update (heap : Heap) (address : Nat) (f : ArrayObject → Except Fault ArrayObject) :
    Except Fault Heap :=
  match heap[address]? with
  | some a => (f a).map fun a => heap.setIfInBounds address a
  | none => .ok heap

def write (heap : Heap) (name : Label) (target : Value) (indices : List Value) (v : Value) :
    Except Fault Heap := do
  let (address, a, i, j) ← locate heap name target indices
  return heap.setIfInBounds address (← a.put i j v)

/-- Fills the `index`-th place of the array at an address. -/
def fill (heap : Heap) (name : Label) (address : Nat) (index : Int) (v : Value) :
    Except Fault Heap :=
  update heap address fun a => a.fill heap name index v

end Heap

end MiniAlgol
