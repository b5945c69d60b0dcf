import MiniAlgol.Fault

/-!
Scopes: the names of one activation and their values.

Scopes do not nest. The program has one and every call has one of its own. A name is found by its
key, and is listed by the label under which it was first bound.
-/

namespace MiniAlgol

/-- The name that a label must be. -/
def Name.ofLabel (label : Label) : Except Fault Name :=
  match ofLabel? label with
  | some name => .ok name
  | none => .error (.notName label.typeWord)

@[simp] theorem Name.ofLabel_word (s : String) : ofLabel (.str s) = .ok (ofWord s) := rfl

/-- Names with their values, in the order in which the names were first bound. -/
structure Scope where
  bindings : List (Name × Value) := []
  deriving Inhabited

namespace Scope

def empty : Scope := {}

def find? (key : Key) : List (Name × Value) → Option Value
  | [] => none
  | (name, v) :: rest => if name.key = key then some v else find? key rest

/-- The value of the name with this key. -/
def get? (scope : Scope) (key : Key) : Option Value :=
  find? key scope.bindings

/-- The value of a label that must name something. -/
def get (scope : Scope) (label : Label) : Except Fault Value := do
  let name ← Name.ofLabel label
  match scope.get? name.key with
  | some v => .ok v
  | none => .error (.undefinedVariable label)

def contains (scope : Scope) (key : Key) : Bool :=
  (scope.get? key).isSome

/-- Puts a value for a name into a list of bindings. -/
def bind (name : Name) (v : Value) : List (Name × Value) → List (Name × Value)
  | [] => [(name, v)]
  | (n, w) :: rest => if n.key = name.key then (n, v) :: rest else (n, w) :: bind name v rest

/-- Gives a name a value. A declaration does the same as an assignment: the last one counts. -/
def set (scope : Scope) (name : Name) (v : Value) : Scope :=
  ⟨bind name v scope.bindings⟩

/-- A scope from names and values; of a name that comes twice the last value counts. -/
def ofList (bindings : List (Name × Value)) : Scope :=
  bindings.foldl (fun scope (name, v) => scope.set name v) empty

def ofArguments (params : List Label) (args : List Value) : Except Fault Scope := do
  let names ← params.mapM Name.ofLabel
  return ofList (names.zip args)

/-- The word under which a routine keeps its result. -/
def resultWord : String := "_returnValue"

/-- The builtins, which every call can reach. -/
def builtins : Scope :=
  ⟨[(Name.ofWord "write", .builtin 0 ⟨"write", none⟩)]⟩

def sorted (scope : Scope) : List (Name × Value) :=
  scope.bindings.mergeSort fun a b => decide (a.1.label.shown ≤ b.1.label.shown)

/-! ### What setting a name does -/

theorem find?_bind (name : Name) (key : Key) (v : Value) (bindings : List (Name × Value)) :
    find? key (bind name v bindings) =
      if key = name.key then some v else find? key bindings := by
  induction bindings with
  | nil => grind [bind, find?]
  | cons binding rest ih => grind [bind, find?]

/-- Setting a name gives its key the value and leaves every other key alone. -/
theorem get?_set (scope : Scope) (name : Name) (key : Key) (v : Value) :
    (scope.set name v).get? key = if key = name.key then some v else scope.get? key :=
  find?_bind name key v scope.bindings

end Scope

end MiniAlgol
