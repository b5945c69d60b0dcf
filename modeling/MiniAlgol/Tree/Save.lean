import MiniAlgol.Json.Listing
import MiniAlgol.Tree.Node

/-!
Program trees as JSON.

Every node is an object whose `type` names its kind; a missing node is `null`.
-/

namespace MiniAlgol.Node

/-- The object of a node: its kind, then its parts. -/
def object (kind : String) (parts : List (String × Json)) : Json :=
  .obj (("type", .str kind) :: parts)

mutual

def toJson : Node → Json
  | missing => .null
  | program body => object "Program" [("body", .arr (toJsonList body))]
  | block body => object "Block" [("statements", .arr (toJsonList body))]
  | varDecl tag name init =>
    object "VarDecl" [("type_spec", .str tag.name), ("name", name), ("expr", toJson init)]
  | arrayDecl name elem extents none =>
    object "ArrayDecl" [("name", name), ("elem_type", .str elem.name),
      ("dims", .arr (extents.map .int)), ("initializer", .null)]
  | arrayDecl name elem extents (some init) =>
    object "ArrayDecl" [("name", name), ("elem_type", .str elem.name),
      ("dims", .arr (extents.map .int)), ("initializer", .arr (toJsonList init))]
  | assign name value => object "Assign" [("name", name), ("value", toJson value)]
  | indexAssign name indices value =>
    object "IndexAssign"
      [("name", name), ("indices", .arr (toJsonList indices)), ("value", toJson value)]
  | ifStmt condition thenBranch elseBranch =>
    object "IfStmt" [("condition", toJson condition), ("then_block", toJson thenBranch),
      ("else_block", toJson elseBranch)]
  | whileStmt condition body =>
    object "WhileStmt" [("condition", toJson condition), ("body", toJson body)]
  | routineDecl kind name params body =>
    object kind.nodeName [("name", name), ("params", .arr params),
      ("body", .arr (toJsonList body))]
  | returnStmt value => object "ReturnStmt" [("value", toJson value)]
  | exprStmt value => object "ExprStmt" [("expr", toJson value)]
  | literal text kind => object "Literal" [("text", text), ("literal_type", kind)]
  | ident name => object "Ident" [("name", name)]
  | binary cls op left right =>
    object cls.nodeName [("op", op), ("left", toJson left), ("right", toJson right)]
  | arrayAccess name indices =>
    object "ArrayAccess" [("name", name), ("indices", .arr (toJsonList indices))]
  | call name args => object "Call" [("name", name), ("args", .arr (toJsonList args))]

/-- The JSON of each tree in a list. -/
def toJsonList : List Node → List Json
  | [] => []
  | n :: ns => toJson n :: toJsonList ns

end

/-- Saves a value that is not a tree: `null` is the missing tree, and of anything else the type is
reported. -/
def saveRaw : Json → Except String Json
  | .null => .ok .null
  | j => .error ("Unsupported node for serialization: " ++ j.typeWord)

end MiniAlgol.Node
