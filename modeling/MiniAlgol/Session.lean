import MiniAlgol.Eval

/-!
Sessions: several steps on one machine.

Beside the scope of the program a session may have others, each known by a name and empty when it
is first asked for. A step works in one of them; what it prints is counted from its start.
-/

namespace MiniAlgol

/-- More fuel than any run that ends in practice can use up. -/
def ampleFuel : Nat := 0x4000000000000000

/-- A machine between steps. The scope of the machine is that of the program. -/
structure Session where
  machine : Machine := {}
  /-- The other scopes by name, in the order in which they were first asked for. -/
  others : List (String × Scope) := []

namespace Session

/-- The name of the scope of the program. -/
def programName : String := "global"

def atLevel (level : Int) : Session :=
  { machine := { level } }

/-- Makes sure that a scope is there. -/
def withScope (s : Session) (name : String) : Session :=
  if name = programName ∨ (s.others.lookup name).isSome then s
  else { s with others := s.others ++ [(name, Scope.empty)] }

def scope (s : Session) (name : String) : Scope :=
  if name = programName then s.machine.scope else (s.others.lookup name).getD Scope.empty

def scopes (s : Session) : List (String × Scope) :=
  (programName, s.machine.scope) :: s.others

def putOther (name : String) (scope : Scope) : List (String × Scope) → List (String × Scope)
  | [] => []
  | (n, other) :: rest =>
    if n = name then (n, scope) :: rest else (n, other) :: putOther name scope rest

def quiet (s : Session) : Session :=
  { s with machine := { s.machine with printed := [] } }

/-- Does an action in the scope with this name. -/
def within {α : Type} (s : Session) (name : String) (action : Action α) :
    Except Stop α × Session :=
  if name = programName then
    match action.on s.machine with
    | (r, m) => (r, { s with machine := m })
  else
    match action.on { s.machine with scope := s.scope name } with
    | (r, m) => (r,
        { machine := { m with scope := s.machine.scope },
          others := putOther name m.scope s.others })

end Session

end MiniAlgol
