import MiniAlgol.Json.Equality
import MiniAlgol.Tree.Label
import MiniAlgol.Tree.Tag

/-!
Program trees.

One type holds every kind of node, because a tree that comes from outside may have any node, or
none, in any position and any label in place of a word; running such a tree is defined too. A tree
that was parsed has statements and expressions only where the grammar puts them.
-/

namespace MiniAlgol

/-- The classes of binary operators, by binding strength. -/
inductive BinaryClass where
  | comparison
  | additive
  | multiplicative
  deriving DecidableEq, Repr, Inhabited

/-- The two kinds of routine. They behave alike and differ in name only. -/
inductive RoutineKind where
  | function
  | procedure
  deriving DecidableEq, Repr, Inhabited

/-- The word for the kind in messages and traces. -/
def RoutineKind.name : RoutineKind → String
  | function => "function"
  | procedure => "procedure"

/-- A node of a program tree. -/
inductive Node where
  /-- No node: an absent initial value or branch. -/
  | missing
  | program (body : List Node)
  /-- Statements between `begin` and `end`. -/
  | block (body : List Node)
  /-- A variable, with its initial value or `missing`. -/
  | varDecl (tag : Tag) (name : Label) (init : Node)
  | arrayDecl (name : Label) (elem : Tag) (extents : List Int) (init : Option (List Node))
  | assign (name : Label) (value : Node)
  | indexAssign (name : Label) (indices : List Node) (value : Node)
  /-- A conditional; the second branch may be `missing`. -/
  | ifStmt (condition thenBranch elseBranch : Node)
  | whileStmt (condition body : Node)
  | routineDecl (kind : RoutineKind) (name : Label) (params : List Label) (body : List Node)
  /-- Sets the result of the routine; the statements after it still run. -/
  | returnStmt (value : Node)
  | exprStmt (value : Node)
  /-- A literal as it was written, with the name of its type. -/
  | literal (text kind : Label)
  | ident (name : Label)
  | binary (cls : BinaryClass) (op : Label) (left right : Node)
  | arrayAccess (name : Label) (indices : List Node)
  | call (name : Label) (args : List Node)
  deriving Inhabited

namespace BinaryClass

/-- The name of the class as a kind of node. -/
def nodeName : BinaryClass → String
  | comparison => "Comparison"
  | additive => "Additive"
  | multiplicative => "Multiplicative"

end BinaryClass

namespace RoutineKind

/-- The name of the declaration as a kind of node. -/
def nodeName : RoutineKind → String
  | function => "FuncDecl"
  | procedure => "ProcDecl"

end RoutineKind

namespace Node

/-- The name of the kind of node; a missing node has none. -/
def kindName? : Node → Option String
  | missing => none
  | program _ => some "Program"
  | block _ => some "Block"
  | varDecl .. => some "VarDecl"
  | arrayDecl .. => some "ArrayDecl"
  | assign .. => some "Assign"
  | indexAssign .. => some "IndexAssign"
  | ifStmt .. => some "IfStmt"
  | whileStmt .. => some "WhileStmt"
  | routineDecl kind .. => some kind.nodeName
  | returnStmt _ => some "ReturnStmt"
  | exprStmt _ => some "ExprStmt"
  | literal .. => some "Literal"
  | ident _ => some "Ident"
  | binary cls .. => some cls.nodeName
  | arrayAccess .. => some "ArrayAccess"
  | call .. => some "Call"

def isMissing : Node → Bool
  | missing => true
  | _ => false

mutual

def same : Node → Node → Bool
  | missing, missing => true
  | program xs, program ys => sameList xs ys
  | block xs, block ys => sameList xs ys
  | varDecl t n x, varDecl t' n' x' => t == t' && n.same n' && same x x'
  | arrayDecl n t e none, arrayDecl n' t' e' none => n.same n' && t == t' && e == e'
  | arrayDecl n t e (some xs), arrayDecl n' t' e' (some ys) =>
    n.same n' && t == t' && e == e' && sameList xs ys
  | assign n x, assign n' x' => n.same n' && same x x'
  | indexAssign n xs x, indexAssign n' ys x' => n.same n' && sameList xs ys && same x x'
  | ifStmt c x y, ifStmt c' x' y' => same c c' && same x x' && same y y'
  | whileStmt c x, whileStmt c' x' => same c c' && same x x'
  | routineDecl k n p xs, routineDecl k' n' p' ys =>
    k == k' && n.same n' && Json.sameItems p p' && sameList xs ys
  | returnStmt x, returnStmt x' => same x x'
  | exprStmt x, exprStmt x' => same x x'
  | literal t k, literal t' k' => t.same t' && k.same k'
  | ident n, ident n' => n.same n'
  | binary c o x y, binary c' o' x' y' => c == c' && o.same o' && same x x' && same y y'
  | arrayAccess n xs, arrayAccess n' ys => n.same n' && sameList xs ys
  | call n xs, call n' ys => n.same n' && sameList xs ys
  | _, _ => false

def sameList : List Node → List Node → Bool
  | [], [] => true
  | x :: xs, y :: ys => same x y && sameList xs ys
  | _, _ => false

end

end Node

end MiniAlgol
