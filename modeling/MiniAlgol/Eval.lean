import MiniAlgol.Machine
import MiniAlgol.Operator

/-!
Running programs.

Expressions give values, statements act on the machine. Fuel bounds how deep evaluation goes, and
one pass of a loop counts as one step down, so with enough fuel every run that ends gets to its
end; running out of fuel is told apart from every fault.

`return` sets the result and ends nothing. A call runs its body in a scope that holds the
parameters only, so a routine sees no variable of its caller; only the builtins can be called from
everywhere.
-/

namespace MiniAlgol

open MiniAlgol.Action

/-- The text of a literal without the quotation marks at its ends; of a list likewise. -/
def innerText : Label → Except Fault Value
  | .str s => .ok (.text (String.ofList (s.toList.drop 1).dropLast))
  | .arr items => .ok (.list (items.drop 1).dropLast)
  | label => .error (.noInnerText label)

def isWord (word : String) : Label → Bool
  | .str s => s == word
  | _ => false

def literalValue (text kind : Label) : Except Fault Value :=
  match kind with
  | .str "int" => return .int (← text.toInteger.mapError .literal)
  | .str "double" => return .real (← text.toReal.mapError .literal)
  | .str "str" => innerText text
  | .str "bool" => .ok (.bool (isWord "true" text))
  | kind => .error (.unknownLiteral kind)

/-- Labels that must all be words; the first of them is at this place of their list. -/
def wordsFrom (index : Nat) : List Label → Except Fault (List String)
  | [] => .ok []
  | .str s :: rest => return s :: (← wordsFrom (index + 1) rest)
  | label :: _ => .error (.notWord index label.typeWord)

/-- A condition must be a truth value; `construct` names the statement it stands in. -/
def requireBool (construct : String) (v : Value) : Action Bool :=
  match v with
  | .bool b => pure b
  | v => do
    -- at most one of the two fails: an array has no elements where an extent is too long to be named
    let shown ← plainText v
    let actual ← typeName v
    fail (.notBoolean construct actual shown v)

/-- Prints the plain text of each value on a line. -/
def printValues : List Value → Action Unit
  | [] => pure ()
  | v :: vs => do
    print (← plainText v)
    printValues vs

def callBuiltin (b : Builtin) (name : Label) (args : List Value) : Action Value :=
  match b.arity with
  | some arity =>
    if (args.length : Int) = arity then do
      printValues args
      return .undefined
    else fail (.arity b.name name arity args.length)
  | none => do
    printValues args
    return .undefined

def checkInitial (tag : Tag) (name : Label) (v : Value) : Action Unit :=
  if v.hasTag tag then pure ()
  else do
    let actual ← typeName v
    let shown ← plainText v
    fail (.initialMismatch name tag actual shown)

/-- What a label stands for in a call: a variable of the scope, or else a builtin. -/
def callee (label : Label) : Action (Option Value) := do
  let name ← lift (Name.ofLabel label)
  return (← get).scope.get? name.key <|> Scope.builtins.get? name.key

/-- Does an action for each item in turn. -/
def forEach {α : Type} (f : α → Action Unit) : List α → Action Unit
  | [] => pure ()
  | a :: rest => do
    f a
    forEach f rest

/-- The results of an action for each item in turn. -/
def collect {α β : Type} (f : α → Action β) : List α → Action (List β)
  | [] => pure []
  | a :: rest => do
    let b ← f a
    let bs ← collect f rest
    return b :: bs

mutual

def evaluate : Nat → Node → Action Value
  | 0, _ => throw .outOfFuel
  | fuel + 1, node =>
    match node with
    | .literal text kind => lift (literalValue text kind)
    | .ident name => lookUp name
    | .binary _ op left right => do
      let a ← evaluate fuel left
      let b ← evaluate fuel right
      lift (a.apply (← get).heap op b)
    | .arrayAccess name indices => do
      let target ← lookUp name
      let is ← collect (evaluate fuel) indices
      let v ← lift (Heap.read (← get).heap name target is)
      record 3 fun heap => return .load name.shown (← Value.listings heap is) (← v.listing heap)
      return v
    | .call name args => do
      let vs ← collect (evaluate fuel) args
      invoke fuel name vs
    | node => fail (.notExpression node.kindName?)

/-- Runs a statement. The result of `return` and of an expression is kept for whoever asks. -/
def execute : Nat → Node → Action (Option Value)
  | 0, _ => throw .outOfFuel
  | fuel + 1, node =>
    match node with
    | .varDecl tag name init => do
      let v ←
        if init.isMissing then pure .undefined
        else do
          let v ← evaluate fuel init
          checkInitial tag name v
          pure v
      bind name v
      record 2 fun heap => return .declare name.shown tag.name (← v.listing heap)
      return none
    | .assign name value => do
      let v ← evaluate fuel value
      bind name v
      record 2 fun heap => return .assign name.shown (← v.listing heap)
      return none
    | .arrayDecl name elem extents init => do
      let address ← allocate (← lift (ArrayObject.allocate elem extents))
      bind name (.array address)
      match init with
      | none => pure ()
      | some elements => do
        let a ← lift (Heap.find (← get).heap name (.array address))
        lift (a.2.checkCapacity name elements.length)
        fillFrom fuel name address 0 elements
      record 2 fun _ =>
        return .declareArray name.shown elem.name (bracketed (← extents.mapM integerText))
      return none
    | .indexAssign name indices value => do
      let target ← lookUp name
      let is ← collect (evaluate fuel) indices
      let v ← evaluate fuel value
      changeHeap fun heap => Heap.write heap name target is v
      record 3 fun heap => return .store name.shown (← Value.listings heap is) (← v.listing heap)
      return none
    | .block body => do
      executeAll fuel body
      return none
    | .ifStmt condition thenBranch elseBranch => do
      let v ← evaluate fuel condition
      let b ← requireBool "if" v
      record 3 fun heap => return .ifCondition (← v.plainText heap)
      if b then
        let _ ← execute fuel thenBranch
        return none
      else if elseBranch.isMissing then return none
      else
        let _ ← execute fuel elseBranch
        return none
    | .whileStmt condition body => do
      let v ← evaluate fuel condition
      if ← requireBool "while" v then repeatWhile fuel condition body
      return none
    | .routineDecl kind name params body => do
      let id ← newId
      bind name (.routine id ⟨name, params, body, kind.name⟩)
      record 2 fun _ =>
        return .define kind.name name.shown (", ".intercalate (← wordsFrom 0 params))
      return none
    | .returnStmt value => do
      let v ← evaluate fuel value
      bind Scope.resultWord v
      return some v
    | .exprStmt value => do
      let v ← evaluate fuel value
      return some v
    | node => fail (.notStatement node.kindName?)

def executeAll : Nat → List Node → Action Unit
  | 0, _ => throw .outOfFuel
  | fuel + 1, body => forEach (fun node => do let _ ← execute fuel node) body

/-- Passes through the body of a loop until the condition after a pass is false. -/
def repeatWhile : Nat → Node → Node → Action Unit
  | 0, _, _ => throw .outOfFuel
  | fuel + 1, condition, body => do
    let _ ← execute fuel body
    let v ← evaluate fuel condition
    record 3 fun heap => return .whileCondition (← v.plainText heap)
    if ← requireBool "while" v then repeatWhile fuel condition body

/-- Evaluates initial elements and stores each before the next one is evaluated. -/
def fillFrom : Nat → Label → Nat → Nat → List Node → Action Unit
  | _, _, _, _, [] => pure ()
  | 0, _, _, _, _ => throw .outOfFuel
  | fuel + 1, name, address, index, element :: rest => do
    let v ← evaluate fuel element
    changeHeap fun heap => Heap.fill heap name address index v
    fillFrom fuel name address (index + 1) rest

def invoke : Nat → Label → List Value → Action Value
  | 0, _, _ => throw .outOfFuel
  | fuel + 1, name, args => do
    match ← callee name with
    | none => fail (.notDeclared name)
    | some (.builtin _ b) => callBuiltin b name args
    | some (.routine _ r) =>
      if args.length = r.params.length then do
        let start ← lift (Scope.ofArguments r.params args)
        openCall r.name
        record 1 fun heap =>
          return .call r.kind r.name.shown (", ".intercalate (← args.mapM (Value.listing heap)))
        let (_, scope) ← inCall start (executeAll fuel r.body)
        let result := (scope.get? (.word Scope.resultWord)).getD .undefined
        record 1 fun heap => return .return r.name.shown (← result.listing heap)
        return result
      else fail (.arity (r.kind ++ " " ++ r.name.shown) name r.params.length args.length)
    | some v => do
      let actual ← typeName v
      fail (.notCallable name actual)

end

/-- The statements of a tree that is run as a program. -/
def programBody : Node → Except Fault (List Node)
  | .program body => .ok body
  | .routineDecl _ _ _ body => .ok body
  | .whileStmt _ body => .error (.bodyNotList body.kindName?)
  | node => .error (.noBody node.kindName?)

/-- Starts a run. A first run starts the trace anew and later ones add to it. -/
def startRun : Action Unit :=
  modify fun m =>
    let opened := if 0 < m.level then
        { m with traced := some (if m.runs = 0 then [] else m.traced.getD []), tracing := true }
      else m
    { opened with runs := m.runs + 1 }

/-- Runs a program. However it ends, nothing is traced afterwards. -/
def runProgram (fuel : Nat) (program : Node) : Action Unit := do
  startRun
  fun m =>
    match Action.on (do executeAll fuel (← lift (programBody program))) m with
    | (r, m') => (r, { m' with tracing := false })

end MiniAlgol
