import MiniAlgol.Source.Token
import MiniAlgol.Tree.Node

/-!
Expressions that are being read.

An expression is read one token at a time. What has been read of it is a `Hole`: the operators
that wait for their right operand, the brackets still open around them, and the use that the whole
expression will have in its statement.
-/

namespace MiniAlgol.Source

abbrev Waiting := Option (Node × String)

/-- Joins a waiting left operand to its right operand. -/
def join (cls : BinaryClass) (waiting : Waiting) (right : Node) : Node :=
  match waiting with
  | none => right
  | some (left, op) => .binary cls op left right

/-- The operators that wait for a right operand, at most one of each binding strength: operators
of one strength associate to the left. -/
structure Pending where
  comparison : Waiting := none
  additive : Waiting := none
  multiplicative : Waiting := none
  deriving Inhabited

namespace Pending

/-- The product or single operand that ends with `x`. -/
def closeProduct (p : Pending) (x : Node) : Node :=
  join .multiplicative p.multiplicative x

/-- The sum that ends with `x`. -/
def closeSum (p : Pending) (x : Node) : Node :=
  join .additive p.additive (p.closeProduct x)

/-- The expression that ends with `x`. -/
def close (p : Pending) (x : Node) : Node :=
  join .comparison p.comparison (p.closeSum x)

/-- The operand `x` followed by an operator: what binds at least as strongly is closed. -/
def push (p : Pending) (cls : BinaryClass) (op : String) (x : Node) : Pending :=
  match cls with
  | .multiplicative => { p with multiplicative := some (p.closeProduct x, op) }
  | .additive =>
    { comparison := p.comparison, additive := some (p.closeSum x, op), multiplicative := none }
  | .comparison => { comparison := some (p.close x, op), additive := none, multiplicative := none }

end Pending

/-- A bracket that is open inside an expression. -/
inductive Enclosure where
  /-- A parenthesis for grouping. -/
  | group
  /-- The arguments of a call, the finished ones in reverse. -/
  | arguments (name : String) (done : List Node)
  /-- The indices of an array element; the first one, once a comma has followed it. -/
  | indices (name : String) (first : Option Node)

/-- The use of a whole expression in its statement. -/
inductive Use where
  /-- The initial value of a variable. -/
  | initial (tag : Tag) (name : String)
  /-- An initial element of an array, the finished ones in reverse. -/
  | element (name : String) (elem : Tag) (extents : List Int) (done : List Node)
  /-- The value assigned to a variable. -/
  | value (name : String)
  /-- An index after the name that starts a statement: of the element to assign to or to read. -/
  | targetIndex (name : String) (first : Option Node)
  /-- The value assigned to an array element. -/
  | elementValue (name : String) (indices : List Node)
  /-- The condition of a conditional. -/
  | ifCondition
  /-- The condition of a loop. -/
  | whileCondition
  /-- The result of a routine. -/
  | result
  /-- A statement of its own. -/
  | effect

/-- The place of an operand. -/
structure Hole where
  /-- The operators before it, back to the innermost open bracket. -/
  pending : Pending := {}
  /-- The open brackets, innermost first, each with the operators before it. -/
  outer : List (Pending × Enclosure) := []
  /-- The use of the whole expression. -/
  use : Use

namespace Hole

/-- The place of the first operand of an expression with this use. -/
def start (use : Use) : Hole :=
  { use }

/-- The place of the first operand after a bracket that opens at this place. -/
def enter (h : Hole) (enclosure : Enclosure) : Hole :=
  { pending := {}, outer := (h.pending, enclosure) :: h.outer, use := h.use }

/-- The place of the operand after an operator. -/
def afterOperator (h : Hole) (cls : BinaryClass) (op : String) (x : Node) : Hole :=
  { h with pending := h.pending.push cls op x }

end Hole

def literal? (token : Token) : Option Node :=
  let text := String.ofList token.text
  match token.terminal with
  | .intLit => some (.literal text "int")
  | .realLit => some (.literal text "double")
  | .stringLit => some (.literal text "str")
  | .keyword .true => some (.literal text "bool")
  | .keyword .false => some (.literal text "bool")
  | _ => none

def operatorClass? : Terminal → Option BinaryClass
  | .compareOp => some .comparison
  | .addOp => some .additive
  | .mulOp => some .multiplicative
  | _ => none

/-- Whether an expression can start with the terminal. -/
def startsExpression : Terminal → Bool
  | .ident | .leftParen | .realLit | .intLit | .stringLit => true
  | .keyword .true | .keyword .false => true
  | _ => false

/-- Whether the terminal can follow an operand somewhere in the grammar. -/
def followsOperand : Terminal → Bool
  | .mulOp | .addOp | .compareOp | .semicolon | .comma | .rightSquare | .rightParen => true
  | .keyword .then | .keyword .do => true
  | _ => false

end MiniAlgol.Source
