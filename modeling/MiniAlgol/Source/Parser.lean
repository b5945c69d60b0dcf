import MiniAlgol.Numeral.Integer
import MiniAlgol.Source.Expression

/-!
The parser as a machine that takes one token at a time.

Its state is what it is in the middle of (`Focus`), which also says what terminals the next token
is looked for among, and the constructs still open around that (`Frame`). A token that the state
has no use for stops it.
-/

namespace MiniAlgol.Source

/-- A construct that is open around the statement being read. -/
inductive Frame where
  /-- The program, its finished statements in reverse. -/
  | program (done : List Node)
  /-- A block, its finished statements in reverse. -/
  | block (done : List Node)
  /-- A routine whose body is being read. -/
  | routine (kind : RoutineKind) (name : String) (params : List String)
  /-- A conditional whose first branch is being read. -/
  | thenBranch (condition : Node)
  /-- A conditional whose second branch is being read. -/
  | elseBranch (condition thenBranch : Node)
  /-- A loop whose body is being read. -/
  | whileBody (condition : Node)

/-- The header of an array declaration up to its extents. -/
structure ArrayHeader where
  name : String
  elem : Tag
  /-- The extents read so far. -/
  extents : List Int := []

/-- What the parser is in the middle of. -/
inductive Focus where
  /-- Before a statement that must come or the first of the program. -/
  | opening
  /-- Between statements. -/
  | statements
  /-- After the `end` of a block. -/
  | ended (block : Node)
  /-- After the type of a variable. -/
  | varType (tag : Tag)
  /-- After the type and name of a variable. -/
  | varName (tag : Tag) (name : String)
  /-- After `array`. -/
  | arrayStart
  /-- After the name of an array. -/
  | arrayName (name : String)
  /-- After the colon behind the name of an array. -/
  | arrayColon (name : String)
  /-- After the element type of an array. -/
  | arrayType (header : ArrayHeader)
  /-- Before the first extent. -/
  | extentFirst (header : ArrayHeader)
  /-- After the first extent. -/
  | extentMore (header : ArrayHeader)
  /-- Before the second extent. -/
  | extentSecond (header : ArrayHeader)
  /-- After the second extent. -/
  | extentLast (header : ArrayHeader)
  /-- After the extents and their bracket. -/
  | arrayExtents (header : ArrayHeader)
  /-- After the equals sign of an array declaration. -/
  | arrayEquals (header : ArrayHeader)
  /-- After the bracket that opens the initial elements. -/
  | arrayOpen (header : ArrayHeader)
  /-- After the initial elements. -/
  | arrayFilled (header : ArrayHeader) (init : List Node)
  /-- After `function` or `procedure`. -/
  | routineStart (kind : RoutineKind)
  /-- After the name of a routine. -/
  | routineName (kind : RoutineKind) (name : String)
  /-- After the parenthesis that opens the parameters. -/
  | paramsOpen (kind : RoutineKind) (name : String)
  /-- After a parameter; the parameters are in reverse. -/
  | paramRead (kind : RoutineKind) (name : String) (params : List String)
  /-- After a comma between parameters. -/
  | paramNext (kind : RoutineKind) (name : String) (params : List String)
  /-- Before the block of a branch or a loop. -/
  | blockOpen
  /-- After `else`. -/
  | elseOpen
  /-- After a name that starts a statement. -/
  | statementName (name : String)
  /-- After a name with indices that starts a statement. -/
  | statementElement (name : String) (indices : List Node)
  /-- Before an operand. -/
  | operand (hole : Hole)
  /-- After the parenthesis that opens the arguments of a call. -/
  | argumentsOpen (name : String) (hole : Hole)
  /-- After a name inside an expression. -/
  | operandName (name : String) (hole : Hole)
  /-- After an operand. -/
  | afterOperand (x : Node) (hole : Hole)

/-- Whether a statement can start with the terminal. -/
def startsStatement (t : Terminal) : Bool :=
  startsExpression t ||
    match t with
    | .keyword .int | .keyword .double | .keyword .str | .keyword .bool | .keyword .array => true
    | .keyword .if | .keyword .while | .keyword .function | .keyword .procedure => true
    | .keyword .return | .keyword .begin => true
    | _ => false

namespace Focus

/-- The terminals among which the next token is looked for. A few of them have no use in the
state at hand, because they have one at the same place elsewhere. -/
def accepts (focus : Focus) (t : Terminal) : Bool :=
  match focus with
  | opening => startsStatement t
  | statements => startsStatement t || t == .keyword .end
  | ended _ => startsStatement t || t == .keyword .end || t == .keyword .else
  | varType _ | arrayType _ => t == .ident || t == .leftSquare
  | varName .. | arrayExtents _ => t == .equal || t == .semicolon
  | arrayStart | routineStart _ | paramNext .. => t == .ident
  | arrayName _ => t == .colon
  | arrayColon _ =>
    match t with
    | .keyword k => k.tag?.isSome
    | _ => false
  | extentFirst _ | extentSecond _ => t == .intLit
  | extentMore _ => t == .rightSquare || t == .comma
  | extentLast _ => t == .rightSquare
  | arrayEquals _ => t == .leftSquare
  | arrayOpen _ => startsExpression t || t == .rightSquare
  | arrayFilled .. => t == .semicolon
  | routineName .. => t == .leftParen
  | paramsOpen .. => t == .rightParen || t == .ident
  | paramRead .. => t == .comma || t == .rightParen
  | blockOpen => t == .keyword .begin
  | elseOpen => t == .keyword .if || t == .keyword .begin
  | statementName _ =>
    t == .becomes || t == .leftSquare || t == .leftParen || t == .semicolon
      || (operatorClass? t).isSome
  | statementElement .. => t == .becomes || t == .semicolon || (operatorClass? t).isSome
  | operand _ => startsExpression t
  | argumentsOpen .. => startsExpression t || t == .rightParen
  | operandName .. => followsOperand t || t == .leftParen || t == .leftSquare
  | afterOperand .. => followsOperand t

end Focus

/-- The state of the parser. -/
structure Parser where
  focus : Focus := .opening
  /-- The open constructs, innermost first. -/
  frames : List Frame := [.program []]
  /-- The length of the first extent that had too many digits, which is reported once the rest of
  the source has been found right. -/
  longExtent : Option Nat := none

namespace Parser

def initial : Parser := {}

/-- The statements of a routine: those of its block, or the one statement that is its body. -/
def routineBody : Node → List Node
  | .block body => body
  | statement => [statement]

/-- Adds a finished statement to the open constructs and closes those that it finishes. -/
def complete : List Frame → Node → List Frame
  | [], _ => []
  | .program done :: frames, s => .program (s :: done) :: frames
  | .block done :: frames, s => .block (s :: done) :: frames
  | .routine kind name params :: frames, s =>
    complete frames (.routineDecl kind name (params.map .str) (routineBody s))
  | .thenBranch condition :: frames, s => complete frames (.ifStmt condition s .missing)
  | .elseBranch condition first :: frames, s => complete frames (.ifStmt condition first s)
  | .whileBody condition :: frames, s => complete frames (.whileStmt condition s)

def focusOn (p : Parser) (focus : Focus) : Parser :=
  { p with focus }

def openTo (p : Parser) (frame : Frame) (focus : Focus) : Parser :=
  { p with focus, frames := frame :: p.frames }

def finishStatement (p : Parser) (s : Node) : Parser :=
  { p with focus := .statements, frames := complete p.frames s }

/-- The state inside a bracket that opens at the place of an operand. -/
def enter (p : Parser) (h : Hole) (enclosure : Enclosure) : Parser :=
  p.focusOn (.operand (h.enter enclosure))

def feedOperand (p : Parser) (h : Hole) (token : Token) : Option Parser :=
  match literal? token with
  | some x => some (p.focusOn (.afterOperand x h))
  | none =>
    match token.terminal with
    | .ident => some (p.focusOn (.operandName (String.ofList token.text) h))
    | .leftParen => some (p.enter h .group)
    | _ => none

/-- Takes a token that ends a whole expression. -/
def feedUse (p : Parser) (use : Use) (e : Node) (t : Terminal) : Option Parser :=
  match use, t with
  | .initial tag name, .semicolon => some (p.finishStatement (.varDecl tag name e))
  | .element name elem extents done, .comma =>
    some (p.focusOn (.operand (Hole.start (.element name elem extents (e :: done)))))
  | .element name elem extents done, .rightSquare =>
    some (p.focusOn (.arrayFilled ⟨name, elem, extents⟩ (e :: done).reverse))
  | .value name, .semicolon => some (p.finishStatement (.assign name e))
  | .targetIndex name none, .comma =>
    some (p.focusOn (.operand (Hole.start (.targetIndex name (some e)))))
  | .targetIndex name none, .rightSquare => some (p.focusOn (.statementElement name [e]))
  | .targetIndex name (some first), .rightSquare =>
    some (p.focusOn (.statementElement name [first, e]))
  | .elementValue name indices, .semicolon =>
    some (p.finishStatement (.indexAssign name indices e))
  | .ifCondition, .keyword .then => some (p.openTo (.thenBranch e) .blockOpen)
  | .whileCondition, .keyword .do => some (p.openTo (.whileBody e) .blockOpen)
  | .result, .semicolon => some (p.finishStatement (.returnStmt e))
  | .effect, .semicolon => some (p.finishStatement (.exprStmt e))
  | _, _ => none

/-- Takes a token that ends the expression inside the innermost bracket, or the whole expression
when no bracket is open. -/
def feedClose (p : Parser) (h : Hole) (e : Node) (t : Terminal) : Option Parser :=
  match h.outer with
  | [] => feedUse p h.use e t
  | (pending, enclosure) :: outer =>
    let around : Hole := { pending, outer, use := h.use }
    match enclosure, t with
    | .group, .rightParen => some (p.focusOn (.afterOperand e around))
    | .arguments name done, .comma => some (p.enter around (.arguments name (e :: done)))
    | .arguments name done, .rightParen =>
      some (p.focusOn (.afterOperand (.call name (e :: done).reverse) around))
    | .indices name none, .comma => some (p.enter around (.indices name (some e)))
    | .indices name none, .rightSquare =>
      some (p.focusOn (.afterOperand (.arrayAccess name [e]) around))
    | .indices name (some first), .rightSquare =>
      some (p.focusOn (.afterOperand (.arrayAccess name [first, e]) around))
    | _, _ => none

def feedAfterOperand (p : Parser) (x : Node) (h : Hole) (token : Token) : Option Parser :=
  match operatorClass? token.terminal with
  | some cls => some (p.focusOn (.operand (h.afterOperator cls (String.ofList token.text) x)))
  | none => feedClose p h (h.pending.close x) token.terminal

/-- Takes the first token of a statement, or the `end` of the block around it. -/
def feedStatement (p : Parser) (token : Token) : Option Parser :=
  match token.terminal with
  | .ident => some (p.focusOn (.statementName (String.ofList token.text)))
  | .keyword k =>
    match k with
    | .int => some (p.focusOn (.varType .int))
    | .double => some (p.focusOn (.varType .double))
    | .str => some (p.focusOn (.varType .str))
    | .bool => some (p.focusOn (.varType .bool))
    | .array => some (p.focusOn .arrayStart)
    | .if => some (p.focusOn (.operand (Hole.start .ifCondition)))
    | .while => some (p.focusOn (.operand (Hole.start .whileCondition)))
    | .function => some (p.focusOn (.routineStart .function))
    | .procedure => some (p.focusOn (.routineStart .procedure))
    | .return => some (p.focusOn (.operand (Hole.start .result)))
    | .begin => some (p.openTo (.block []) .statements)
    | .end =>
      match p.frames with
      | .block done :: frames => some { p with focus := .ended (.block done.reverse), frames }
      | _ => none
    | _ => feedOperand p (Hole.start .effect) token
  | _ => feedOperand p (Hole.start .effect) token

/-- Takes an extent. One with too many digits counts as zero, and its length is noted. -/
def feedExtent (p : Parser) (header : ArrayHeader) (token : Token)
    (next : ArrayHeader → Focus) : Option Parser :=
  match token.terminal with
  | .intLit =>
    let digits := token.text.filterMap Text.decimalDigit?
    if Numeral.maxDigits < digits.length then
      some { p with
        focus := next { header with extents := header.extents ++ [0] }
        longExtent := p.longExtent <|> some digits.length }
    else
      let extent : Int := Numeral.ofDigits digits
      some (p.focusOn (next { header with extents := header.extents ++ [extent] }))
  | _ => none

/-- Takes a token after the `end` of a block. An `else` continues the conditional whose first
branch the block is; anything else shows that the statement around the block is finished. -/
def feedEnded (p : Parser) (block : Node) (token : Token) : Option Parser :=
  match token.terminal with
  | .keyword .else =>
    match p.frames with
    | .thenBranch condition :: frames =>
      some { p with focus := .elseOpen, frames := .elseBranch condition block :: frames }
    | _ => none
  | _ => feedStatement (p.finishStatement block) token

/-- Goes on when the terminal is the one expected. -/
def expect (t expected : Terminal) (next : Parser) : Option Parser :=
  if t = expected then some next else none

/-- Takes a token; `none` when the state has no use for it. -/
def feed (p : Parser) (token : Token) : Option Parser :=
  let t := token.terminal
  let text := String.ofList token.text
  match p.focus with
  | .opening => feedStatement p token
  | .statements => feedStatement p token
  | .ended block => feedEnded p block token
  | .varType tag => expect t .ident (p.focusOn (.varName tag text))
  | .varName tag name =>
    match t with
    | .equal => some (p.focusOn (.operand (Hole.start (.initial tag name))))
    | .semicolon => some (p.finishStatement (.varDecl tag name .missing))
    | _ => none
  | .arrayStart => expect t .ident (p.focusOn (.arrayName text))
  | .arrayName name => expect t .colon (p.focusOn (.arrayColon name))
  | .arrayColon name =>
    match t with
    | .keyword k => k.tag?.map fun elem => p.focusOn (.arrayType { name, elem })
    | _ => none
  | .arrayType header => expect t .leftSquare (p.focusOn (.extentFirst header))
  | .extentFirst header => feedExtent p header token .extentMore
  | .extentMore header =>
    match t with
    | .comma => some (p.focusOn (.extentSecond header))
    | .rightSquare => some (p.focusOn (.arrayExtents header))
    | _ => none
  | .extentSecond header => feedExtent p header token .extentLast
  | .extentLast header => expect t .rightSquare (p.focusOn (.arrayExtents header))
  | .arrayExtents header =>
    match t with
    | .equal => some (p.focusOn (.arrayEquals header))
    | .semicolon =>
      some (p.finishStatement (.arrayDecl header.name header.elem header.extents none))
    | _ => none
  | .arrayEquals header => expect t .leftSquare (p.focusOn (.arrayOpen header))
  | .arrayOpen header =>
    match t with
    | .rightSquare => some (p.focusOn (.arrayFilled header []))
    | _ => feedOperand p (Hole.start (.element header.name header.elem header.extents [])) token
  | .arrayFilled header init =>
    expect t .semicolon
      (p.finishStatement (.arrayDecl header.name header.elem header.extents (some init)))
  | .routineStart kind => expect t .ident (p.focusOn (.routineName kind text))
  | .routineName kind name => expect t .leftParen (p.focusOn (.paramsOpen kind name))
  | .paramsOpen kind name =>
    match t with
    | .rightParen => some (p.openTo (.routine kind name []) .opening)
    | .ident => some (p.focusOn (.paramRead kind name [text]))
    | _ => none
  | .paramRead kind name params =>
    match t with
    | .comma => some (p.focusOn (.paramNext kind name params))
    | .rightParen => some (p.openTo (.routine kind name params.reverse) .opening)
    | _ => none
  | .paramNext kind name params =>
    expect t .ident (p.focusOn (.paramRead kind name (text :: params)))
  | .blockOpen => expect t (.keyword .begin) (p.openTo (.block []) .statements)
  | .elseOpen =>
    match t with
    | .keyword .begin => some (p.openTo (.block []) .statements)
    | .keyword .if => some (p.focusOn (.operand (Hole.start .ifCondition)))
    | _ => none
  | .statementName name =>
    match t with
    | .becomes => some (p.focusOn (.operand (Hole.start (.value name))))
    | .leftSquare => some (p.focusOn (.operand (Hole.start (.targetIndex name none))))
    | .leftParen => some (p.focusOn (.argumentsOpen name (Hole.start .effect)))
    | _ => feedAfterOperand p (.ident name) (Hole.start .effect) token
  | .statementElement name indices =>
    match t with
    | .becomes => some (p.focusOn (.operand (Hole.start (.elementValue name indices))))
    | _ => feedAfterOperand p (.arrayAccess name indices) (Hole.start .effect) token
  | .operand h => feedOperand p h token
  | .argumentsOpen name h =>
    match t with
    | .rightParen => some (p.focusOn (.afterOperand (.call name []) h))
    | _ => feedOperand p (h.enter (.arguments name [])) token
  | .operandName name h =>
    match t with
    | .leftParen => some (p.focusOn (.argumentsOpen name h))
    | .leftSquare => some (p.enter h (.indices name none))
    | _ => feedAfterOperand p (.ident name) h token
  | .afterOperand x h => feedAfterOperand p x h token

/-- The statements of the program, when the source may end here. -/
def finish (p : Parser) : Option (List Node) :=
  let frames :=
    match p.focus with
    | .opening | .statements => p.frames
    | .ended block => complete p.frames block
    | _ => []
  match frames with
  | [.program done] => some done.reverse
  | _ => none

end Parser

end MiniAlgol.Source
