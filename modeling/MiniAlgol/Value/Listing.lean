import MiniAlgol.Fault
import MiniAlgol.Numeral.Real

/-!
Values as text, in two forms: the plain text that a program prints and joins, and the listing that
traces and error details show. The name of the type of a value is a text as well, and the one of an
array shows its extents.

The listing of an array that holds itself stops where the array comes up again inside its own
listing. Its plain text has no end, and is a fault.
-/

namespace MiniAlgol

/-- An integer as text, or a fault when it is too long. -/
def integerText (n : Int) : Except Fault String :=
  match Numeral.writeInteger n with
  | .ok s => .ok s
  | .error e => .error (.numeral e)

def bracketed (texts : List String) : String :=
  "[" ++ ", ".intercalate texts ++ "]"

/-- What stands for the elements of an array inside its own listing. -/
def ellipsis : String := "[...]"

/-- The name of the type of an array. A fault, when an extent is too long to be written. -/
def ArrayObject.typeName : ArrayObject → Except Fault String
  | .line elem items => .ok ("array " ++ elem.name ++ "[" ++ Nat.repr items.size ++ "]")
  | .grid elem rows cols _ => do
    let r ← integerText rows
    let c ← integerText cols
    .ok ("array " ++ elem.name ++ "[" ++ r ++ ", " ++ c ++ "]")

/-- Why a value does not pass a check. -/
inductive CheckError where
  | refused (message : String)
  /-- The type of the value cannot be named in the message. -/
  | fault (f : Fault)

namespace Value

/-- The name of the type of a value. -/
def typeName (heap : Heap) : Value → Except Fault String
  | undefined => .ok "undefined"
  | int _ => .ok "int"
  | real _ => .ok "double"
  | text _ => .ok "str"
  | bool _ => .ok "bool"
  | list items => .ok (Json.arr items).typeWord
  | routine _ r => .ok (routineTypeName r.kind)
  | builtin .. => .ok "builtin"
  | array address =>
    match heap[address]? with
    | some a => a.typeName
    | none => .ok "array"

/-- Checks a value against a type given by name. -/
def check (heap : Heap) (v : Value) (tagName : String) : Except CheckError Unit :=
  match Tag.ofName? tagName with
  | none => .error (.refused ("unknown type tag: " ++ tagName))
  | some tag =>
    if v.hasTag tag then .ok ()
    else
      match v.typeName heap with
      | .ok actual => .error (.refused (mismatchText tag actual))
      | .error f => .error (.fault f)

def callableListing (kind name : String) : String :=
  "<" ++ kind ++ " " ++ name ++ ">"

/-- The listing of an array around the listing of its elements. -/
def arrayListing (a : ArrayObject) (elements : String) : Except Fault String :=
  match a with
  | .line elem _ => .ok ("Array1D(" ++ elem.name ++ ", " ++ elements ++ ")")
  | .grid elem rows cols _ => do
    let r ← integerText rows
    let c ← integerText cols
    .ok ("Array2D(" ++ elem.name ++ ", " ++ r ++ "x" ++ c ++ ", " ++ elements ++ ")")

/-- The elements of an array by a given text for each. -/
def elementTexts (each : Value → Except Fault String) : ArrayObject → Except Fault String
  | .line _ items => return bracketed (← items.toList.mapM each)
  | .grid _ _ _ cells => do
    let rows ← cells.toList.mapM fun row => return bracketed (← row.toList.mapM each)
    return bracketed rows

/-- The listing of a value inside the listings of the arrays in `around`. The fuel bounds the
number of arrays around it. -/
def listingWithin (heap : Heap) : Nat → List Nat → Value → Except Fault String
  | _, _, undefined => .ok "Undefined"
  | _, _, int n => integerText n
  | _, _, real x => .ok (Numeral.writeReal x)
  | _, _, text s => .ok (Text.quote s)
  | _, _, bool b => .ok (if b then "True" else "False")
  | _, _, list items => .ok (Json.arr items).listing
  | _, _, routine _ r => .ok (callableListing r.kind r.name.shown)
  | _, _, builtin _ b => .ok (callableListing "builtin" b.name)
  | 0, _, array _ => .ok ellipsis
  | fuel + 1, around, array address =>
    match heap[address]? with
    | none => .ok ellipsis
    | some a =>
      if around.contains address then arrayListing a ellipsis
      else do
        let elements ← elementTexts (listingWithin heap fuel (address :: around)) a
        arrayListing a elements

/-- The listing of a value. No more arrays than there are can be open around one another, and one
more level finds the array that comes up again. -/
def listing (heap : Heap) (v : Value) : Except Fault String :=
  listingWithin heap (heap.size + 1) [] v

def listings (heap : Heap) (vs : List Value) : Except Fault String :=
  return bracketed (← vs.mapM (listing heap))

/-- The plain text of a value at most `fuel` arrays deep. -/
def textWithin (heap : Heap) : Nat → Value → Except Fault String
  | _, undefined => .ok ""
  | _, int n => integerText n
  | _, real x => .ok (Numeral.writeRealShort x)
  | _, text s => .ok s
  | _, bool b => .ok (if b then "true" else "false")
  | _, list items => .ok (Json.arr items).listing
  | _, routine _ r => .ok (callableListing r.kind r.name.shown)
  | _, builtin _ b => .ok (callableListing "builtin" b.name)
  | 0, array _ => .error .endlessText
  | fuel + 1, array address =>
    match heap[address]? with
    | none => .error .endlessText
    | some a => elementTexts (textWithin heap fuel) a

/-- The plain text of a value. Arrays nested deeper than there are arrays hold themselves. -/
def plainText (heap : Heap) (v : Value) : Except Fault String :=
  textWithin heap heap.size v

end Value

/-- The listing of something involved in an error. -/
def Detail.listing (heap : Heap) : Detail → Except Fault String
  | .text s => .ok (Text.quote s)
  | .label l => .ok l.listing
  | .int n => integerText n
  | .value v => v.listing heap
  | .ints ns => return bracketed (← ns.mapM integerText)

end MiniAlgol
