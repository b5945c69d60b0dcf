import MiniAlgol.Value.Listing

/-!
The trace of a run: one line for each event, indented by the number of open calls.

Every kind of event has a level, and a run at some level records the events up to that level. The
text of an event is fixed when it happens.
-/

namespace MiniAlgol

/-- Something that a trace records, with values already listed. -/
inductive Event where
  | call (kind name args : String)
  | return (name result : String)
  | declare (name tag value : String)
  | assign (name value : String)
  | declareArray (name elem extents : String)
  | define (kind name params : String)
  | ifCondition (shown : String)
  /-- The condition of a loop after a pass through its body. -/
  | whileCondition (shown : String)
  | load (name indices value : String)
  | store (name indices value : String)
  deriving DecidableEq, Repr

namespace Event

/-- The least level at which the event is recorded. -/
def level : Event → Int
  | call .. | .return .. => 1
  | declare .. | assign .. | declareArray .. | define .. => 2
  | ifCondition _ | whileCondition _ | load .. | store .. => 3

def text : Event → String
  | call kind name args => "call " ++ kind ++ " " ++ name ++ "(" ++ args ++ ")"
  | .return name result => "return from " ++ name ++ " -> " ++ result
  | declare name tag value => "declare " ++ name ++ ": " ++ tag ++ " = " ++ value
  | assign name value => "assign " ++ name ++ " := " ++ value
  | declareArray name elem extents => "declare array " ++ name ++ ": " ++ elem ++ extents
  | define kind name params => "define " ++ kind ++ " " ++ name ++ "(" ++ params ++ ")"
  | ifCondition shown => "if condition -> " ++ shown
  | whileCondition shown => "while condition -> " ++ shown
  | load name indices value => "load " ++ name ++ indices ++ " -> " ++ value
  | store name indices value => "store " ++ name ++ indices ++ " := " ++ value

end Event

/-- An event with the number of calls open around it. -/
structure TraceLine where
  depth : Nat
  event : Event
  deriving DecidableEq, Repr

/-- The line of a trace, with its indentation. -/
def TraceLine.text (line : TraceLine) : String :=
  String.ofList (List.replicate (2 * line.depth) ' ') ++ line.event.text

def traceText (lines : List TraceLine) : String :=
  String.join (lines.map fun line => line.text ++ "\n")

end MiniAlgol
