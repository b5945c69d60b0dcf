import MiniAlgol.Eval

/-!
# What runs are made of

Running a tree goes through its parts (`Node.expressions`, `Node.statements`) and does a few
actions between them: look a name up, apply an operator, read or store an element, declare a
routine, open a call and so on. Those that are written out inside the evaluator get a name here,
and the equations of this module show the evaluator in their terms, so that proofs about runs need
to open neither.
-/

namespace MiniAlgol

open MiniAlgol.Action

/-! ## The parts of a node that run -/

namespace Node

/-- The expressions that running a node evaluates. -/
def expressions : Node → List Node
  | varDecl _ _ init => if init.isMissing then [] else [init]
  | arrayDecl _ _ _ init => init.getD []
  | assign _ value => [value]
  | indexAssign _ indices value => value :: indices
  | ifStmt condition _ _ => [condition]
  | whileStmt condition _ => [condition]
  | returnStmt value => [value]
  | exprStmt value => [value]
  | binary _ _ left right => [left, right]
  | arrayAccess _ indices => indices
  | call _ args => args
  | _ => []

/-- The statements that running a node runs in the same activation. -/
def statements : Node → List Node
  | block body => body
  | ifStmt _ thenBranch elseBranch =>
    if elseBranch.isMissing then [thenBranch] else [thenBranch, elseBranch]
  | whileStmt _ body => [body]
  | _ => []

/-- The label that a node looks up or binds. -/
def label? : Node → Option Label
  | varDecl _ name _ => some name
  | arrayDecl name _ _ _ => some name
  | assign name _ => some name
  | indexAssign name _ _ => some name
  | routineDecl _ name _ _ => some name
  | ident name => some name
  | arrayAccess name _ => some name
  | call name _ => some name
  | _ => none

/-- Whether a node can be evaluated. -/
def isExpression : Node → Bool
  | literal .. | ident _ | binary .. | arrayAccess .. | call .. => true
  | _ => false

/-- Whether a node can be run. -/
def isStatement : Node → Bool
  | block _ | varDecl .. | arrayDecl .. | assign .. | indexAssign .. | ifStmt .. => true
  | whileStmt .. | routineDecl .. | returnStmt _ | exprStmt _ => true
  | _ => false

end Node

/-! ## The actions that runs are made of -/

/-- Applies an operator in the heap at hand. -/
def operate (op : Label) (a b : Value) : Action Value := do
  lift (a.apply (← get).heap op b)

/-- Reads an element in the heap at hand. -/
def readElement (name : Label) (target : Value) (indices : List Value) : Action Value := do
  lift (Heap.read (← get).heap name target indices)

/-- Makes the array of a declaration. -/
def allocateArray (elem : Tag) (extents : List Int) : Action Nat := do
  allocate (← lift (ArrayObject.allocate elem extents))

/-- Checks that an array has room for some initial elements. -/
def checkRoom (name : Label) (address : Nat) (count : Int) : Action Unit := do
  let a ← lift (Heap.find (← get).heap name (.array address))
  lift (a.2.checkCapacity name count)

/-- Gives the initial value of a variable: that of its expression, which must have the type, or
the undefined value. -/
def initialValue (fuel : Nat) (tag : Tag) (name : Label) (init : Node) : Action Value :=
  if init.isMissing then pure .undefined
  else do
    let v ← evaluate fuel init
    checkInitial tag name v
    pure v

/-- Stores the initial elements of an array, if there are any. -/
def initialElements (fuel : Nat) (name : Label) (address : Nat) :
    Option (List Node) → Action Unit
  | none => pure ()
  | some elements => do
    checkRoom name address elements.length
    fillFrom fuel name address 0 elements

/-- Declares a routine under a name. -/
def declareRoutine (name : Label) (r : Routine) : Action Unit := do
  let id ← newId
  bind name (.routine id r)

/-- Runs a body as the activation of a routine and gives its result. -/
def activate (r : Routine) (args : List Value) (body : Action Unit) : Action Value := do
  let start ← lift (Scope.ofArguments r.params args)
  openCall r.name
  record 1 fun heap =>
    return .call r.kind r.name.shown (", ".intercalate (← args.mapM (Value.listing heap)))
  let (_, scope) ← inCall start body
  let result := (scope.get? (.word Scope.resultWord)).getD .undefined
  record 1 fun heap => return .return r.name.shown (← result.listing heap)
  return result

/-- The record of the start of a call. -/
def recordCall (r : Routine) (args : List Value) : Action Unit :=
  record 1 fun heap =>
    return .call r.kind r.name.shown (", ".intercalate (← args.mapM (Value.listing heap)))

/-- What is left of an activation once the call is open. -/
def finishCall (r : Routine) (args : List Value) (start : Scope) (body : Action Unit) :
    Action Value := do
  recordCall r args
  let (_, scope) ← inCall start body
  let result := (scope.get? (.word Scope.resultWord)).getD .undefined
  record 1 fun heap => return .return r.name.shown (← result.listing heap)
  return result

/-- Tests the condition of a loop after a pass, which is recorded first. -/
def passTest (v : Value) : Action Bool := do
  record 3 fun heap => return .whileCondition (← v.plainText heap)
  requireBool "while" v

/-- Whether a value can be called. -/
def Value.isCallable : Value → Bool
  | routine .. | builtin .. => true
  | _ => false

/-- The value that a fault is about. -/
def Fault.value? : Fault → Option Value
  | .indexMismatch _ v _ | .divisionByZero _ _ v | .notBoolean _ _ _ v => some v
  | _ => none

/-- Calls what a name stands for. -/
def callValue (fuel : Nat) (name : Label) (args : List Value) : Option Value → Action Value
  | none => fail (.notDeclared name)
  | some (.builtin _ b) => callBuiltin b name args
  | some (.routine _ r) =>
    if args.length = r.params.length then activate r args (executeAll fuel r.body)
    else fail (.arity (r.kind ++ " " ++ r.name.shown) name r.params.length args.length)
  | some v => do
    let actual ← typeName v
    fail (.notCallable name actual)

/-! ## How actions end -/

/-- The action stops for lack of fuel. -/
def Action.Starves {α : Type} (x : Action α) (m : Machine) : Prop :=
  (x.on m).1 = .error .outOfFuel

/-- An action that gave a result did so after the first part of it. -/
theorem on_bind_ok {α β : Type} {x : Action α} {f : α → Action β} {m m' : Machine} {b : β}
    (h : (x >>= f).on m = (.ok b, m')) :
    ∃ a m₁, x.on m = (.ok a, m₁) ∧ (f a).on m₁ = (.ok b, m') := by
  rw [on_bind] at h
  rcases hx : x.on m with ⟨r, m₁⟩
  rw [hx] at h
  cases r with
  | ok a => exact ⟨a, m₁, rfl, h⟩
  | error s => cases h

/-! ## Records -/

/-- The event of a truth value has a text in every heap. -/
theorem plainText_bool (b : Bool) (event : String → Event) :
    (fun heap => return event (← (Value.bool b).plainText heap) : Heap → Except Fault Event)
      = fun _ => return event (if b then "true" else "false") := by
  funext heap
  unfold Value.plainText
  cases heap.size <;> rfl

/-- The machine with one more line of its trace, if events are recorded. -/
def Machine.note (m : Machine) (e : Event) : Machine :=
  if m.tracing then { m with traced := m.traced.map (⟨m.depth, e⟩ :: ·) } else m

theorem exists_note (m : Machine) (e : Event) : ∃ traced, m.note e = { m with traced } := by
  unfold Machine.note
  split
  · exact ⟨_, rfl⟩
  · exact ⟨m.traced, rfl⟩

/-- A record changes the trace only, and fails only with the text of its event. -/
theorem on_record (level : Int) (event : Heap → Except Fault Event) (m : Machine) :
    (record level event).on m =
      if level ≤ m.level then
        match event m.heap with
        | .ok e => (.ok (), m.note e)
        | .error f => (.error (.fault f), m)
      else (.ok (), m) := by
  simp only [record, on_bind, on_get]
  split
  · rw [on_bind]
    cases event m.heap with
    | error f => rfl
    | ok e =>
      simp only [on_lift_ok, Machine.note]
      split <;> rfl
  · rfl

/-! ## The evaluator in these terms -/

section Unfolding

variable (fuel : Nat)

theorem evaluate_arrayAccess (name : Label) (indices : List Node) :
    evaluate (fuel + 1) (.arrayAccess name indices) = (do
      let target ← lookUp name
      let is ← collect (evaluate fuel) indices
      let v ← readElement name target is
      record 3 fun heap => return .load name.shown (← Value.listings heap is) (← v.listing heap)
      return v) := by
  simp only [evaluate, readElement, bind_assoc]

theorem execute_varDecl (tag : Tag) (name : Label) (init : Node) :
    execute (fuel + 1) (.varDecl tag name init) = (do
      let v ← initialValue fuel tag name init
      bind name v
      record 2 fun heap => return .declare name.shown tag.name (← v.listing heap)
      return none) := by
  cases hmissing : init.isMissing <;>
    simp [execute, initialValue, hmissing, bind_assoc]

theorem execute_arrayDecl (name : Label) (elem : Tag) (extents : List Int)
    (init : Option (List Node)) :
    execute (fuel + 1) (.arrayDecl name elem extents init) = (do
      let address ← allocateArray elem extents
      bind name (.array address)
      initialElements fuel name address init
      record 2 fun _ =>
        return .declareArray name.shown elem.name (bracketed (← extents.mapM integerText))
      return none) := by
  cases init <;>
    simp only [execute, allocateArray, initialElements, checkRoom, bind_assoc, pure_bind]

theorem execute_routineDecl (kind : RoutineKind) (name : Label) (params : List Label)
    (body : List Node) :
    execute (fuel + 1) (.routineDecl kind name params body) = (do
      declareRoutine name ⟨name, params, body, kind.name⟩
      record 2 fun _ =>
        return .define kind.name name.shown (", ".intercalate (← wordsFrom 0 params))
      return none) := by
  simp only [execute, declareRoutine, bind_assoc]

theorem repeatWhile_succ (condition body : Node) :
    repeatWhile (fuel + 1) condition body = (do
      let _ ← execute fuel body
      let v ← evaluate fuel condition
      if ← passTest v then repeatWhile fuel condition body) := by
  simp only [repeatWhile, passTest, bind_assoc]

theorem executeAll_cons (n : Node) (rest : List Node) :
    executeAll (fuel + 1) (n :: rest) =
      ((do let _ ← execute fuel n : Action Unit) >>= fun _ => executeAll (fuel + 1) rest) :=
  rfl

/-- An array without initial elements needs no fuel to be filled. -/
@[simp] theorem fillFrom_nil (name : Label) (address index : Nat) :
    fillFrom fuel name address index [] = pure () := by
  cases fuel <;> rfl

theorem invoke_succ (name : Label) (args : List Value) :
    invoke (fuel + 1) name args = (do callValue fuel name args (← callee name)) := by
  rw [invoke]
  rfl

theorem callValue_other (name : Label) (args : List Value) {v : Value}
    (hv : v.isCallable = false) :
    callValue fuel name args (some v) = (do
      let actual ← typeName v
      fail (.notCallable name actual)) := by
  cases v with
  | routine id r => simp [Value.isCallable] at hv
  | builtin id b => simp [Value.isCallable] at hv
  | _ => rfl

/-- What can be no callee is refused, by the name of its type or for want of it. -/
theorem on_callValue_other (fuel : Nat) (name : Label) (args : List Value) {v : Value}
    (hv : v.isCallable = false) (m : Machine) :
    ∃ f, (callValue fuel name args (some v)).on m = (.error (.fault f), m) := by
  rw [callValue_other fuel name args hv]
  simp only [typeName, on_bind, on_get]
  cases v.typeName m.heap <;> exact ⟨_, rfl⟩

/-- Refuses a value that is no condition and has this text. -/
def refuseCondition (construct shown : String) (v : Value) : Action Bool := do
  let actual ← typeName v
  fail (.notBoolean construct actual shown v)

theorem on_refuseCondition (construct shown : String) (v : Value) (m : Machine) :
    (refuseCondition construct shown v).on m =
      match v.typeName m.heap with
      | .ok actual => (.error (.fault (.notBoolean construct actual shown v)), m)
      | .error f => (.error (.fault f), m) := by
  simp only [refuseCondition, typeName, on_bind, on_get]
  cases v.typeName m.heap <;> rfl

theorem requireBool_other {construct : String} {v : Value} (hv : v.hasTag .bool = false) :
    requireBool construct v = (do
      let shown ← plainText v
      refuseCondition construct shown v) := by
  cases v with
  | bool b => cases hv
  | _ => rfl

theorem on_requireBool_other {construct : String} {v : Value} (hv : v.hasTag .bool = false)
    (m : Machine) :
    (requireBool construct v).on m =
      match v.plainText m.heap with
      | .ok shown => (refuseCondition construct shown v).on m
      | .error f => (.error (.fault f), m) := by
  rw [requireBool_other hv]
  simp only [plainText, on_bind, on_get]
  cases v.plainText m.heap <;> rfl

/-- What a name stands for is found without a change to the machine. -/
theorem on_callee {name : Label} {key : Name} {m : Machine} {v : Value}
    (hname : Name.ofLabel name = .ok key) (hv : m.scope.get? key.key = some v) :
    (callee name).on m = (.ok (some v), m) := by
  simp only [callee, on_bind, hname, on_lift_ok, on_get, on_pure, hv]
  rfl

/-- Starting a run changes nothing but the trace and the count of runs. -/
theorem exists_on_startRun (m : Machine) :
    ∃ traced tracing runs, (startRun.on m).2 = { m with traced, tracing, runs } := by
  rw [startRun, on_modify]
  simp only
  split
  · exact ⟨_, _, _, rfl⟩
  · exact ⟨_, _, _, rfl⟩

/-- What a program does once its run has started. -/
def runBody (program : Node) : Action Unit := do
  executeAll fuel (← lift (programBody program))

theorem on_runProgram_runBody (program : Node) (m : Machine) :
    (runProgram fuel program).on m =
      (((runBody fuel program).on (startRun.on m).2).1,
        { ((runBody fuel program).on (startRun.on m).2).2 with tracing := false }) :=
  rfl

theorem on_runProgram {program : Node} {body : List Node} {m : Machine}
    (hbody : programBody program = .ok body) :
    (runProgram fuel program).on m =
      (((executeAll fuel body).on (startRun.on m).2).1,
        { ((executeAll fuel body).on (startRun.on m).2).2 with tracing := false }) := by
  rw [on_runProgram_runBody, runBody, hbody]
  rfl

end Unfolding

end MiniAlgol
