import MiniAlgol.Scope
import MiniAlgol.Store
import MiniAlgol.Trace

/-!
The machine that programs run on.

An action of the machine gives a result or stops, and in both cases leaves a machine: what was
printed, stored and traced before a stop stays.
-/

namespace MiniAlgol

/-- The state of the machine. -/
structure Machine where
  /-- The names of the current activation. -/
  scope : Scope := Scope.builtins
  heap : Heap := #[]
  /-- The identity of the next routine to be declared. -/
  nextId : Nat := 1
  /-- The lines printed so far, the last one first. -/
  printed : List String := []
  /-- The names of the routines whose calls are open, innermost first. -/
  calls : List Label := []
  /-- The level of the trace. -/
  level : Int := 0
  /-- The lines traced so far, the last one first, once there is a trace. -/
  traced : Option (List TraceLine) := none
  /-- Whether events are recorded now. -/
  tracing : Bool := false
  /-- How many runs were started. -/
  runs : Nat := 0

namespace Machine

def output (m : Machine) : String :=
  String.join (m.printed.reverse.map (· ++ "\n"))

/-- The text of the trace, if there is one. -/
def trace (m : Machine) : Option String :=
  m.traced.map fun lines => traceText lines.reverse

def depth (m : Machine) : Nat :=
  m.calls.length

end Machine

/-- Why an action gave no result. -/
inductive Stop where
  /-- A fault of the program. -/
  | fault (f : Fault)
  /-- The fuel was too little; more of it may give a result. -/
  | outOfFuel

abbrev Action := ExceptT Stop (StateM Machine)

namespace Action

def on {α : Type} (action : Action α) (m : Machine) : Except Stop α × Machine :=
  ExceptT.run action m

/-! ### How actions run -/

@[simp] theorem on_pure {α : Type} (a : α) (m : Machine) :
    (pure a : Action α).on m = (.ok a, m) := rfl

@[simp] theorem on_throw {α : Type} (s : Stop) (m : Machine) :
    (throw s : Action α).on m = (.error s, m) := rfl

@[simp] theorem on_get (m : Machine) : (get : Action Machine).on m = (.ok m, m) := rfl

@[simp] theorem on_set (m m' : Machine) : (set m' : Action Unit).on m = (.ok (), m') := rfl

@[simp] theorem on_modify (f : Machine → Machine) (m : Machine) :
    (modify f : Action Unit).on m = (.ok (), f m) := rfl

/-- The second of two actions runs on the machine that the first one left, if that one gave a
result. -/
theorem on_bind {α β : Type} (x : Action α) (f : α → Action β) (m : Machine) :
    (x >>= f).on m =
      match x.on m with
      | (.ok a, m') => (f a).on m'
      | (.error s, m') => (.error s, m') := by
  have opened : (x >>= f).on m = ExceptT.bindCont f (x.on m).1 (x.on m).2 := rfl
  rw [opened]
  rcases x.on m with ⟨r, m'⟩
  cases r <;> rfl

/-! ### The actions that programs are made of -/

def fail {α : Type} (f : Fault) : Action α :=
  throw (.fault f)

/-- A result that may be a fault. -/
def lift {α : Type} (r : Except Fault α) : Action α :=
  match r with
  | .ok a => pure a
  | .error f => fail f

@[simp] theorem on_lift_ok {α : Type} (a : α) (m : Machine) :
    (lift (.ok a) : Action α).on m = (.ok a, m) := rfl

@[simp] theorem on_lift_error {α : Type} (f : Fault) (m : Machine) :
    (lift (.error f) : Action α).on m = (.error (.fault f), m) := rfl

def plainText (v : Value) : Action String := do
  lift (v.plainText (← get).heap)

/-- The name of the type of a value. -/
def typeName (v : Value) : Action String := do
  lift (v.typeName (← get).heap)

/-- The value of a label in the current scope. -/
def lookUp (label : Label) : Action Value := do
  lift ((← get).scope.get label)

/-- Gives a label of the current scope a value. -/
def bind (label : Label) (v : Value) : Action Unit := do
  let name ← lift (Name.ofLabel label)
  modify fun m => { m with scope := m.scope.set name v }

def print (line : String) : Action Unit :=
  modify fun m => { m with printed := line :: m.printed }

def newId : Action Nat := do
  let m ← get
  set { m with nextId := m.nextId + 1 }
  return m.nextId

/-- Puts an array into the heap and gives its address. -/
def allocate (a : ArrayObject) : Action Nat := do
  let m ← get
  set { m with heap := m.heap.push a }
  return m.heap.size

def changeHeap (f : Heap → Except Fault Heap) : Action Unit := do
  let heap ← lift (f (← get).heap)
  modify fun m => { m with heap }

/-- Records an event of some level. Its text is made whenever the level asks for it, and is kept
if there is a trace to keep it. -/
def record (level : Int) (event : Heap → Except Fault Event) : Action Unit := do
  let m ← get
  if level ≤ m.level then
    let e ← lift (event m.heap)
    if m.tracing then
      modify fun m => { m with traced := m.traced.map (⟨m.depth, e⟩ :: ·) }

def openCall (name : Label) : Action Unit :=
  modify fun m => { m with calls := name :: m.calls }

/-- Runs an action in a scope of its own and then closes the call that is open around it, whether
or not the action gave a result; gives the result and the scope it left. -/
def inCall {α : Type} (scope : Scope) (action : Action α) : Action (α × Scope) :=
  fun m =>
    match action.on { m with scope } with
    | (.ok a, m') => (.ok (a, m'.scope), { m' with scope := m.scope, calls := m'.calls.tail })
    | (.error e, m') => (.error e, { m' with scope := m.scope, calls := m'.calls.tail })

theorem on_inCall {α : Type} (scope : Scope) (action : Action α) (m : Machine) :
    (inCall scope action).on m =
      match action.on { m with scope } with
      | (.ok a, m') => (.ok (a, m'.scope), { m' with scope := m.scope, calls := m'.calls.tail })
      | (.error e, m') => (.error e, { m' with scope := m.scope, calls := m'.calls.tail }) :=
  rfl

end Action

end MiniAlgol
