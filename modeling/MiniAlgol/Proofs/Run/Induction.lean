import MiniAlgol.Proofs.Except
import MiniAlgol.Proofs.Run.Actions

/-!
# Properties that runs inherit from their actions

A run is made of a few actions, done one after the other, and of calls, each of which is a body run
in an activation of its own. A property of actions that holds of those few, and of two actions in
turn and of an activation when it holds of the parts, is `Inherited`; it then holds of every
expression, statement, loop and call at every fuel (`Inherited.runs`).

Nothing is asked of the trees and of the values here. Properties that depend on them go through
`Simulation`.
-/

namespace MiniAlgol

open MiniAlgol.Action

/-- Whether the event is the start or the end of a call. -/
def Event.isOfCall : Event → Bool
  | call .. | .return .. => true
  | _ => false

/-- What is recorded is neither the start nor the end of a call. -/
def Inner (event : Heap → Except Fault Event) : Prop :=
  ∀ heap e, event heap = .ok e → e.isOfCall = false

theorem inner_pure {e : Event} (he : e.isOfCall = false) : Inner fun _ => pure e := by
  intro heap _ h
  cases h
  exact he

theorem inner_bind {α : Type} {x : Heap → Except Fault α} {f : α → Heap → Except Fault Event}
    (hf : ∀ a, Inner (f a)) : Inner fun heap => x heap >>= fun a => f a heap := by
  intro heap e h
  obtain ⟨a, -, h⟩ := bind_ok h
  exact hf a heap e h

/-- The property holds of the actions that runs are made of, calls apart, and of two actions in turn
when it holds of both. -/
structure Elementary (P : {α : Type} → Action α → Prop) : Prop where
  pure : ∀ {α : Type} (a : α), P (pure a : Action α)
  fail : ∀ {α : Type} (f : Fault), P (fail f : Action α)
  bind : ∀ {α β : Type} {x : Action α} {f : α → Action β}, P x → (∀ a, P (f a)) → P (x >>= f)
  /-- An action that only looks at the names and the arrays. -/
  look : ∀ {α : Type} (F : Scope → Heap → Except Fault α),
    P (do
      let m ← get
      lift (F m.scope m.heap))
  bindName : ∀ label v, P (Action.bind label v)
  print : ∀ line, P (print line)
  newId : P newId
  allocate : ∀ a, P (allocate a)
  changeHeap : ∀ f, P (changeHeap f)
  record : ∀ {level event}, 0 < level → Inner event → P (record level event)

/-- The property holds of all that runs are made of: of the stop without fuel too, and of an
activation when it holds of the body. -/
structure Inherited (P : {α : Type} → Action α → Prop) : Prop extends Elementary P where
  outOfFuel : ∀ {α : Type}, P (throw .outOfFuel : Action α)
  activate : ∀ {r args} {x : Action Unit}, P x → P (activate r args x)

/-- The property holds of everything that runs with this fuel. -/
structure RunsWith (P : {α : Type} → Action α → Prop) (fuel : Nat) : Prop where
  evaluate : ∀ n, P (evaluate fuel n)
  execute : ∀ n, P (execute fuel n)
  executeAll : ∀ body, P (executeAll fuel body)
  repeatWhile : ∀ condition body, P (repeatWhile fuel condition body)
  fillFrom : ∀ name address index elements, P (fillFrom fuel name address index elements)
  invoke : ∀ name args, P (invoke fuel name args)

variable {P : {α : Type} → Action α → Prop} {α β : Type} {fuel : Nat}

/-! ## Actions without a tree -/

namespace Elementary

theorem lift (H : Elementary P) (r : Except Fault α) : P (Action.lift r) := by
  cases r with
  | ok a => exact H.pure a
  | error f => exact H.fail f

theorem typeName (H : Elementary P) (v : Value) : P (Action.typeName v) :=
  H.look fun _ heap => v.typeName heap

theorem plainText (H : Elementary P) (v : Value) : P (Action.plainText v) :=
  H.look fun _ heap => v.plainText heap

theorem lookUp (H : Elementary P) (label : Label) : P (Action.lookUp label) :=
  H.look fun scope _ => scope.get label

theorem callee (H : Elementary P) (label : Label) : P (MiniAlgol.callee label) :=
  H.bind (H.lift _) fun name => H.look fun scope _ =>
    .ok (scope.get? name.key <|> Scope.builtins.get? name.key)

theorem operate (H : Elementary P) (op : Label) (a b : Value) : P (MiniAlgol.operate op a b) :=
  H.look fun _ heap => a.apply heap op b

theorem readElement (H : Elementary P) (name : Label) (target : Value) (indices : List Value) :
    P (MiniAlgol.readElement name target indices) :=
  H.look fun _ heap => Heap.read heap name target indices

theorem checkRoom (H : Elementary P) (name : Label) (address : Nat) (count : Int) :
    P (MiniAlgol.checkRoom name address count) := by
  have hsteps : MiniAlgol.checkRoom name address count = (do
      let a ← (do
        let m ← get
        Action.lift (Heap.find m.heap name (.array address)))
      Action.lift (a.2.checkCapacity name count)) := by
    simp only [MiniAlgol.checkRoom, bind_assoc]
  rw [hsteps]
  exact H.bind (H.look fun _ heap => Heap.find heap name (.array address)) fun _ => H.lift _

theorem requireBool (H : Elementary P) (construct : String) (v : Value) :
    P (MiniAlgol.requireBool construct v) := by
  unfold MiniAlgol.requireBool
  split
  · exact H.pure _
  · exact H.bind (H.plainText _) fun _ => H.bind (H.typeName _) fun _ => H.fail _

theorem checkInitial (H : Elementary P) (tag : Tag) (name : Label) (v : Value) :
    P (MiniAlgol.checkInitial tag name v) := by
  unfold MiniAlgol.checkInitial
  split
  · exact H.pure _
  · exact H.bind (H.typeName v) fun _ => H.bind (H.plainText v) fun _ => H.fail _

theorem printValues (H : Elementary P) (vs : List Value) : P (MiniAlgol.printValues vs) := by
  induction vs with
  | nil => exact H.pure _
  | cons v vs ih => exact H.bind (H.plainText v) fun _ => H.bind (H.print _) fun _ => ih

theorem callBuiltin (H : Elementary P) (b : Builtin) (name : Label) (args : List Value) :
    P (MiniAlgol.callBuiltin b name args) := by
  unfold MiniAlgol.callBuiltin
  split
  · split
    · exact H.bind (H.printValues args) fun _ => H.pure _
    · exact H.fail _
  · exact H.bind (H.printValues args) fun _ => H.pure _

theorem forEach (H : Elementary P) {f : α → Action Unit} (hf : ∀ a, P (f a)) (items : List α) :
    P (MiniAlgol.forEach f items) := by
  induction items with
  | nil => exact H.pure _
  | cons a items ih => exact H.bind (hf a) fun _ => ih

theorem collect (H : Elementary P) {f : α → Action β} (hf : ∀ a, P (f a)) (items : List α) :
    P (MiniAlgol.collect f items) := by
  induction items with
  | nil => exact H.pure _
  | cons a items ih => exact H.bind (hf a) fun _ => H.bind ih fun _ => H.pure _

end Elementary

/-! ## Runs -/

namespace Inherited

theorem evaluate_succ (H : Inherited P) (ih : RunsWith P fuel) (n : Node) :
    P (evaluate (fuel + 1) n) := by
  cases n with
  | literal text kind => exact H.lift _
  | ident name => exact H.lookUp name
  | binary cls op left right =>
    simp only [evaluate]
    exact H.bind (ih.evaluate left) fun a => H.bind (ih.evaluate right) fun b =>
      H.operate op a b
  | arrayAccess name indices =>
    rw [evaluate_arrayAccess]
    exact H.bind (H.lookUp name) fun _ => H.bind (H.collect ih.evaluate indices) fun _ =>
      H.bind (H.readElement name _ _) fun _ =>
        H.bind (H.record (by decide) (inner_bind fun _ => inner_bind fun _ => inner_pure rfl))
          fun _ => H.pure _
  | call name args =>
    simp only [evaluate]
    exact H.bind (H.collect ih.evaluate args) fun _ => ih.invoke name _
  | _ =>
    simp only [evaluate]
    exact H.fail _

theorem initialValue (H : Inherited P) (ih : RunsWith P fuel) (tag : Tag) (name : Label)
    (init : Node) : P (MiniAlgol.initialValue fuel tag name init) := by
  unfold MiniAlgol.initialValue
  split
  · exact H.pure _
  · exact H.bind (ih.evaluate init) fun _ => H.bind (H.checkInitial tag name _) fun _ => H.pure _

theorem initialElements (H : Inherited P) (ih : RunsWith P fuel) (name : Label) (address : Nat)
    (init : Option (List Node)) : P (MiniAlgol.initialElements fuel name address init) := by
  cases init with
  | none => exact H.pure _
  | some elements =>
    refine H.bind (H.checkRoom name address _) fun _ => ?_
    exact ih.fillFrom name address 0 elements

theorem execute_succ (H : Inherited P) (ih : RunsWith P fuel) (n : Node) :
    P (execute (fuel + 1) n) := by
  cases n with
  | varDecl tag name init =>
    rw [execute_varDecl]
    exact H.bind (H.initialValue ih tag name init) fun _ => H.bind (H.bindName name _) fun _ =>
      H.bind (H.record (by decide) (inner_bind fun _ => inner_pure rfl)) fun _ => H.pure _
  | arrayDecl name elem extents init =>
    rw [execute_arrayDecl]
    exact H.bind (H.bind (H.lift _) H.allocate) fun _ => H.bind (H.bindName name _) fun _ =>
      H.bind (H.initialElements ih name _ init) fun _ =>
        H.bind (H.record (by decide) (inner_bind fun _ => inner_pure rfl)) fun _ => H.pure _
  | assign name value =>
    simp only [execute]
    exact H.bind (ih.evaluate value) fun _ => H.bind (H.bindName name _) fun _ =>
      H.bind (H.record (by decide) (inner_bind fun _ => inner_pure rfl)) fun _ => H.pure _
  | indexAssign name indices value =>
    simp only [execute]
    exact H.bind (H.lookUp name) fun _ => H.bind (H.collect ih.evaluate indices) fun _ =>
      H.bind (ih.evaluate value) fun _ => H.bind (H.changeHeap _) fun _ =>
        H.bind (H.record (by decide) (inner_bind fun _ => inner_bind fun _ => inner_pure rfl))
          fun _ => H.pure _
  | block body =>
    simp only [execute]
    exact H.bind (ih.executeAll body) fun _ => H.pure _
  | ifStmt condition thenBranch elseBranch =>
    simp only [execute]
    refine H.bind (ih.evaluate condition) fun _ => H.bind (H.requireBool _ _) fun _ =>
      H.bind (H.record (by decide) (inner_bind fun _ => inner_pure rfl)) fun _ => ?_
    split
    · exact H.bind (ih.execute thenBranch) fun _ => H.pure _
    · split
      · exact H.pure _
      · exact H.bind (ih.execute elseBranch) fun _ => H.pure _
  | whileStmt condition body =>
    simp only [execute]
    refine H.bind (ih.evaluate condition) fun _ => H.bind (H.requireBool _ _) fun _ => ?_
    split
    · exact H.bind (ih.repeatWhile condition body) fun _ => H.pure _
    · exact H.pure _
  | routineDecl kind name params body =>
    rw [execute_routineDecl]
    exact H.bind (H.bind H.newId fun _ => H.bindName name _) fun _ =>
      H.bind (H.record (by decide) (inner_bind fun _ => inner_pure rfl)) fun _ => H.pure _
  | returnStmt value =>
    simp only [execute]
    exact H.bind (ih.evaluate value) fun _ => H.bind (H.bindName _ _) fun _ => H.pure _
  | exprStmt value =>
    simp only [execute]
    exact H.bind (ih.evaluate value) fun _ => H.pure _
  | _ =>
    simp only [execute]
    exact H.fail _

theorem repeatWhile_succ (H : Inherited P) (ih : RunsWith P fuel) (condition body : Node) :
    P (repeatWhile (fuel + 1) condition body) := by
  simp only [repeatWhile]
  refine H.bind (ih.execute body) fun _ => H.bind (ih.evaluate condition) fun _ =>
    H.bind (H.record (by decide) (inner_bind fun _ => inner_pure rfl)) fun _ =>
      H.bind (H.requireBool _ _) fun _ => ?_
  split
  · exact ih.repeatWhile condition body
  · exact H.pure _

theorem invoke_succ (H : Inherited P) (ih : RunsWith P fuel) (name : Label) (args : List Value) :
    P (invoke (fuel + 1) name args) := by
  rw [MiniAlgol.invoke_succ]
  refine H.bind (H.callee name) fun callee => ?_
  unfold callValue
  split
  · exact H.fail _
  · exact H.callBuiltin _ name args
  · split
    · exact H.activate (ih.executeAll _)
    · exact H.fail _
  · exact H.bind (H.typeName _) fun _ => H.fail _

theorem runs_zero (H : Inherited P) : RunsWith P 0 where
  evaluate _ := H.outOfFuel
  execute _ := H.outOfFuel
  executeAll _ := H.outOfFuel
  repeatWhile _ _ := H.outOfFuel
  fillFrom name address index elements := by
    cases elements with
    | nil => exact H.pure _
    | cons element rest => exact H.outOfFuel
  invoke _ _ := H.outOfFuel

/-- What the actions have, every run has. -/
theorem runs (H : Inherited P) : ∀ fuel, RunsWith P fuel
  | 0 => H.runs_zero
  | fuel + 1 =>
    have ih := H.runs fuel
    { evaluate := H.evaluate_succ ih
      execute := H.execute_succ ih
      executeAll := fun body =>
        H.forEach (fun n => H.bind (ih.execute n) fun _ => H.pure _) body
      repeatWhile := H.repeatWhile_succ ih
      fillFrom := fun name address index elements => by
        cases elements with
        | nil => exact H.pure _
        | cons element rest =>
          simp only [fillFrom]
          exact H.bind (ih.evaluate element) fun _ => H.bind (H.changeHeap _) fun _ =>
            ih.fillFrom name address (index + 1) rest
      invoke := H.invoke_succ ih }

end Inherited

end MiniAlgol
