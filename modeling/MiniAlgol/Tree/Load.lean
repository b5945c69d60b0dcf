import MiniAlgol.Json.Number
import MiniAlgol.Tree.Node

/-!
Program trees from JSON.

The parts of a node are read in a fixed order and the first fault is reported. Unknown members are
ignored, labels are taken as they are, and where a list is needed anything that can be gone
through will do: a string is the list of its characters and an object the list of its names.
-/

namespace MiniAlgol

/-- Why a JSON value is no program tree. -/
inductive LoadError where
  /-- A node is neither an object nor `null`. -/
  | notObject
  | missingPart (name : String)
  | unknownKind (shown : String)
  /-- The kind of node is given by a list or an object. -/
  | compoundKind (typeWord : String)
  | unknownTag (shown : String)
  | notList (typeWord : String)
  | extent (error : Json.ConversionError)

namespace LoadError

def message : LoadError → String
  | notObject => "Invalid AST object"
  | missingPart name => Text.quote name
  | unknownKind shown => "Unknown AST node type: " ++ shown
  | compoundKind typeWord => "unhashable type: '" ++ typeWord ++ "'"
  | unknownTag shown => Tag.unknownMessage shown
  | notList typeWord => "'" ++ typeWord ++ "' object is not iterable"
  | extent error => error.message

end LoadError

namespace Node

/-- The items of a value that can be gone through. -/
def itemsOf : Json → Except LoadError (List Json)
  | .arr items => .ok items
  | .str s => .ok (s.toList.map fun c => .str c.toString)
  | .obj members => .ok (members.map fun (name, _) => .str name)
  | j => .error (.notList j.typeWord)

def tagOf (j : Json) : Except LoadError Tag :=
  match j with
  | .str s =>
    match Tag.ofName? s with
    | some tag => .ok tag
    | none => .error (.unknownTag s)
  | _ => .error (.unknownTag j.shown)

/-- An extent: whatever can be converted to an integer. -/
def extentOf (j : Json) : Except LoadError Int :=
  j.toInteger.mapError .extent

/-- A part of an object, read in each of the ways a node may need it. -/
structure Part where
  raw : Json
  node : Except LoadError Node
  nodes : Except LoadError (List Node)

abbrev Parts := List (String × Part)

namespace Parts

def get (parts : Parts) (name : String) : Except LoadError Part :=
  match parts.lookup name with
  | some part => .ok part
  | none => .error (.missingPart name)

def node (parts : Parts) (name : String) : Except LoadError Node := do
  (← parts.get name).node

def nodes (parts : Parts) (name : String) : Except LoadError (List Node) := do
  (← parts.get name).nodes

/-- A tree that may be left out. -/
def nodeOrMissing (parts : Parts) (name : String) : Except LoadError Node :=
  match parts.lookup name with
  | some part => part.node
  | none => .ok .missing

/-- A list of trees that may be left out or `null`. -/
def nodesOrNone (parts : Parts) (name : String) : Except LoadError (Option (List Node)) :=
  match parts.lookup name with
  | none => .ok none
  | some part =>
    match part.raw with
    | .null => .ok none
    | _ => part.nodes.map some

def label (parts : Parts) (name : String) : Except LoadError Label := do
  return (← parts.get name).raw

def tag (parts : Parts) (name : String) : Except LoadError Tag := do
  tagOf (← parts.get name).raw

def labels (parts : Parts) (name : String) : Except LoadError (List Label) := do
  itemsOf (← parts.get name).raw

def extents (parts : Parts) (name : String) : Except LoadError (List Int) := do
  (← itemsOf (← parts.get name).raw).mapM extentOf

def routine (parts : Parts) (kind : RoutineKind) : Except LoadError Node := do
  let name ← parts.label "name"
  let params ← parts.labels "params"
  let body ← parts.nodes "body"
  return .routineDecl kind name params body

def binary (parts : Parts) (cls : BinaryClass) : Except LoadError Node := do
  let op ← parts.label "op"
  let left ← parts.node "left"
  let right ← parts.node "right"
  return .binary cls op left right

/-- The node of a named kind with these parts. -/
def assemble (parts : Parts) (kind : String) : Except LoadError Node :=
  match kind with
  | "Program" => do return .program (← parts.nodes "body")
  | "Block" => do return .block (← parts.nodes "statements")
  | "VarDecl" => do
    let tag ← parts.tag "type_spec"
    let name ← parts.label "name"
    let init ← parts.nodeOrMissing "expr"
    return .varDecl tag name init
  | "ArrayDecl" => do
    let name ← parts.label "name"
    let elem ← parts.tag "elem_type"
    let extents ← parts.extents "dims"
    let init ← parts.nodesOrNone "initializer"
    return .arrayDecl name elem extents init
  | "Assign" => do
    let name ← parts.label "name"
    let value ← parts.node "value"
    return .assign name value
  | "IndexAssign" => do
    let name ← parts.label "name"
    let indices ← parts.nodes "indices"
    let value ← parts.node "value"
    return .indexAssign name indices value
  | "IfStmt" => do
    let condition ← parts.node "condition"
    let thenBranch ← parts.node "then_block"
    let elseBranch ← parts.nodeOrMissing "else_block"
    return .ifStmt condition thenBranch elseBranch
  | "WhileStmt" => do
    let condition ← parts.node "condition"
    let body ← parts.node "body"
    return .whileStmt condition body
  | "FuncDecl" => parts.routine .function
  | "ProcDecl" => parts.routine .procedure
  | "ReturnStmt" => do return .returnStmt (← parts.node "value")
  | "ExprStmt" => do return .exprStmt (← parts.node "expr")
  | "Literal" => do
    let text ← parts.label "text"
    let kind ← parts.label "literal_type"
    return .literal text kind
  | "Ident" => do return .ident (← parts.label "name")
  | "Additive" => parts.binary .additive
  | "Multiplicative" => parts.binary .multiplicative
  | "Comparison" => parts.binary .comparison
  | "ArrayAccess" => do
    let name ← parts.label "name"
    let indices ← parts.nodes "indices"
    return .arrayAccess name indices
  | "Call" => do
    let name ← parts.label "name"
    let args ← parts.nodes "args"
    return .call name args
  | kind => .error (.unknownKind kind)

/-- The node with these parts, one of which names its kind. -/
def toNode (parts : Parts) : Except LoadError Node :=
  match parts.lookup "type" with
  | none => .error (.unknownKind Json.null.shown)
  | some part =>
    match part.raw with
    | .str kind => parts.assemble kind
    | .arr items => .error (.compoundKind (Json.arr items).typeWord)
    | .obj members => .error (.compoundKind (Json.obj members).typeWord)
    | j => .error (.unknownKind j.shown)

end Parts

mutual

def ofJson : Json → Except LoadError Node
  | .null => .ok .missing
  | .obj members => (partsOf members).toNode
  | _ => .error .notObject

/-- The trees of the items of a JSON value. Only a list can have items that are trees. -/
def ofJsonItems : Json → Except LoadError (List Node)
  | .arr items => ofJsonList items
  | .str s => if s.isEmpty then .ok [] else .error .notObject
  | .obj members => if members.isEmpty then .ok [] else .error .notObject
  | j => .error (.notList j.typeWord)

/-- The tree of each JSON value in a list. -/
def ofJsonList : List Json → Except LoadError (List Node)
  | [] => .ok []
  | j :: js => do
    let n ← ofJson j
    let ns ← ofJsonList js
    return n :: ns

def partsOf : List (String × Json) → Parts
  | [] => []
  | (name, value) :: members => (name, ⟨value, ofJson value, ofJsonItems value⟩) :: partsOf members

end

end Node

end MiniAlgol
