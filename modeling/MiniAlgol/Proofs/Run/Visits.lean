import MiniAlgol.Proofs.Run.Induction
import Mathlib.Logic.Relation

/-!
# What a run comes to

Running a tree is running its parts, one after the other, and the bodies of the routines that are
called. A `Task` is one of these, and `Task.Comes` says which tasks a task starts, and on which
machines: those that the parts before it left. So the machines that tasks are started on
(`Task.Visits`) are those that a run goes through.

Nothing is missed: a run that stops without fuel has come to a task that has none
(`exists_visits_of_starves`). A property that tasks hand on to those that they start, and that asks
for fuel, therefore shows that a run ends.
-/

namespace MiniAlgol

open MiniAlgol.Action

/-! ## Tasks -/

/-- A part of a run, with its fuel. -/
inductive Task where
  | evaluate (fuel : Nat) (n : Node)
  | execute (fuel : Nat) (n : Node)
  | executeAll (fuel : Nat) (body : List Node)
  | repeatWhile (fuel : Nat) (condition body : Node)
  | fillFrom (fuel : Nat) (name : Label) (address index : Nat) (elements : List Node)
  | invoke (fuel : Nat) (name : Label) (args : List Value)
  /-- A call that was just opened, and the scope in which the body will run. -/
  | opened (fuel : Nat) (r : Routine) (args : List Value) (start : Scope)

/-- The target of an access or an assignment, and the values of its indices. -/
def locateTarget (fuel : Nat) (name : Label) (indices : List Node) :
    Action (Value × List Value) := do
  let target ← lookUp name
  let is ← collect (evaluate fuel) indices
  return (target, is)

/-- Makes the array of a declaration that has this many initial elements. -/
def declareArray (name : Label) (elem : Tag) (extents : List Int) (count : Nat) : Action Nat := do
  let address ← allocateArray elem extents
  bind name (.array address)
  checkRoom name address count
  return address

/-- Tests the condition of a conditional, which is recorded. -/
def testIf (fuel : Nat) (condition : Node) : Action Bool := do
  let v ← evaluate fuel condition
  let b ← requireBool "if" v
  record 3 fun heap => return .ifCondition (← v.plainText heap)
  return b

theorem execute_ifStmt (fuel : Nat) (condition thenBranch elseBranch : Node) :
    execute (fuel + 1) (.ifStmt condition thenBranch elseBranch) = (do
      if ← testIf fuel condition then
        let _ ← execute fuel thenBranch
        return none
      else if elseBranch.isMissing then return none
      else
        let _ ← execute fuel elseBranch
        return none) := by
  simp only [execute, testIf, bind_assoc, pure_bind]

theorem execute_whileStmt (fuel : Nat) (condition body : Node) :
    execute (fuel + 1) (.whileStmt condition body) = (do
      let b ← (do requireBool "while" (← evaluate fuel condition))
      if b then repeatWhile fuel condition body
      return none) := by
  simp only [execute, bind_assoc]

/-- What an action with a result comes to, as tasks ask for it. -/
theorem on_eq_of_ok {α : Type} {x : Action α} {m : Machine} {a : α} (h : (x.on m).1 = .ok a) :
    x.on m = (.ok a, (x.on m).2) :=
  Prod.ext h rfl

namespace Task

/-- The first task, on the first machine, starts the second one on the second machine. -/
inductive Comes : Task → Machine → Task → Machine → Prop where
  | left {f cls op x y m} : Comes (.evaluate (f + 1) (.binary cls op x y)) m (.evaluate f x) m
  | right {f cls op x y m m' v} (h : (MiniAlgol.evaluate f x).on m = (.ok v, m')) :
      Comes (.evaluate (f + 1) (.binary cls op x y)) m (.evaluate f y) m'
  | index {f name before e after m m' found}
      (h : (locateTarget f name before).on m = (.ok found, m')) :
      Comes (.evaluate (f + 1) (.arrayAccess name (before ++ e :: after))) m (.evaluate f e) m'
  | argument {f name before e after m m' vs}
      (h : (collect (MiniAlgol.evaluate f) before).on m = (.ok vs, m')) :
      Comes (.evaluate (f + 1) (.call name (before ++ e :: after))) m (.evaluate f e) m'
  | invocation {f name args m m' vs}
      (h : (collect (MiniAlgol.evaluate f) args).on m = (.ok vs, m')) :
      Comes (.evaluate (f + 1) (.call name args)) m (.invoke f name vs) m'
  | initial {f tag name init m} (hinit : init.isMissing = false) :
      Comes (.execute (f + 1) (.varDecl tag name init)) m (.evaluate f init) m
  | assigned {f name value m} :
      Comes (.execute (f + 1) (.assign name value)) m (.evaluate f value) m
  | elements {f name elem extents elements m m' address}
      (h : (declareArray name elem extents elements.length).on m = (.ok address, m')) :
      Comes (.execute (f + 1) (.arrayDecl name elem extents (some elements))) m
        (.fillFrom f name address 0 elements) m'
  | targetIndex {f name before e after value m m' found}
      (h : (locateTarget f name before).on m = (.ok found, m')) :
      Comes (.execute (f + 1) (.indexAssign name (before ++ e :: after) value)) m
        (.evaluate f e) m'
  | stored {f name indices value m m' found}
      (h : (locateTarget f name indices).on m = (.ok found, m')) :
      Comes (.execute (f + 1) (.indexAssign name indices value)) m (.evaluate f value) m'
  | block {f body m} : Comes (.execute (f + 1) (.block body)) m (.executeAll f body) m
  | ifCondition {f condition x y m} :
      Comes (.execute (f + 1) (.ifStmt condition x y)) m (.evaluate f condition) m
  | thenBranch {f condition x y m m'} (h : (testIf f condition).on m = (.ok true, m')) :
      Comes (.execute (f + 1) (.ifStmt condition x y)) m (.execute f x) m'
  | elseBranch {f condition x y m m'} (hy : y.isMissing = false)
      (h : (testIf f condition).on m = (.ok false, m')) :
      Comes (.execute (f + 1) (.ifStmt condition x y)) m (.execute f y) m'
  | whileCondition {f condition x m} :
      Comes (.execute (f + 1) (.whileStmt condition x)) m (.evaluate f condition) m
  | passes {f condition x m m'}
      (h : (do requireBool "while" (← MiniAlgol.evaluate f condition)).on m = (.ok true, m')) :
      Comes (.execute (f + 1) (.whileStmt condition x)) m (.repeatWhile f condition x) m'
  | returned {f value m} :
      Comes (.execute (f + 1) (.returnStmt value)) m (.evaluate f value) m
  | expression {f value m} :
      Comes (.execute (f + 1) (.exprStmt value)) m (.evaluate f value) m
  | statement {f before n after m m'}
      (h : (forEach (fun n => do let _ ← MiniAlgol.execute f n) before).on m = (.ok (), m')) :
      Comes (.executeAll (f + 1) (before ++ n :: after)) m (.execute f n) m'
  | pass {f condition x m} : Comes (.repeatWhile (f + 1) condition x) m (.execute f x) m
  | passCondition {f condition x m m' result}
      (h : (MiniAlgol.execute f x).on m = (.ok result, m')) :
      Comes (.repeatWhile (f + 1) condition x) m (.evaluate f condition) m'
  | again {f condition x m m'}
      (h : (do
        let _ ← MiniAlgol.execute f x
        passTest (← MiniAlgol.evaluate f condition)).on m = (.ok true, m')) :
      Comes (.repeatWhile (f + 1) condition x) m (.repeatWhile f condition x) m'
  | element {f name address index e rest m} :
      Comes (.fillFrom (f + 1) name address index (e :: rest)) m (.evaluate f e) m
  | laterElements {f name address index e rest m m'}
      (h : (do
        let v ← MiniAlgol.evaluate f e
        changeHeap fun heap => Heap.fill heap name address index v).on m = (.ok (), m')) :
      Comes (.fillFrom (f + 1) name address index (e :: rest)) m
        (.fillFrom f name address (index + 1) rest) m'
  | call {f name args m m' id r start}
      (hcallee : (callee name).on m = (.ok (some (.routine id r)), m'))
      (hlen : args.length = r.params.length)
      (hstart : Scope.ofArguments r.params args = .ok start) :
      Comes (.invoke (f + 1) name args) m (.opened f r args start)
        { m' with calls := r.name :: m'.calls }
  | enter {f r args start m m'} (h : (recordCall r args).on m = (.ok (), m')) :
      Comes (.opened f r args start) m (.executeAll f r.body) { m' with scope := start }

/-- The first task leads to the second one. -/
def Visits (t : Task) (m : Machine) (t' : Task) (m' : Machine) : Prop :=
  Relation.ReflTransGen (fun s s' : Task × Machine => Comes s.1 s.2 s'.1 s'.2) (t, m) (t', m')

theorem Visits.head {t t' t'' : Task} {m m' m'' : Machine} (h : t.Comes m t' m')
    (hvisits : t'.Visits m' t'' m'') : t.Visits m t'' m'' :=
  Relation.ReflTransGen.head h hvisits

end Task

/-! ## Stops without fuel -/

/-- The action needs no fuel. -/
def Action.Steady {α : Type} (x : Action α) : Prop :=
  ∀ m, ¬ Starves x m

section Starving

variable {α β : Type} {m : Machine}

theorem starves_bind {x : Action α} {f : α → Action β} (h : Starves (x >>= f) m) :
    Starves x m ∨ ∃ a m', x.on m = (.ok a, m') ∧ Starves (f a) m' := by
  rw [Starves, on_bind] at h
  rcases hx : x.on m with ⟨r, m'⟩
  rw [hx] at h
  cases r with
  | error s =>
    cases h
    left
    rw [Starves, hx]
  | ok a => exact .inr ⟨a, m', rfl, h⟩

theorem steady_bind {x : Action α} {f : α → Action β} (hx : Steady x) (hf : ∀ a, Steady (f a)) :
    Steady (x >>= f) := by
  intro m h
  rcases starves_bind h with h | ⟨a, m', -, h⟩
  · exact hx m h
  · exact hf a m' h

theorem steady_pure (a : α) : Steady (pure a : Action α) :=
  fun _ h => by cases h

theorem steady_fail (f : Fault) : Steady (fail f : Action α) :=
  fun _ h => by cases h

theorem steady_lift (r : Except Fault α) : Steady (lift r) := by
  cases r with
  | ok a => exact steady_pure a
  | error f => exact steady_fail f

theorem steady_modify (f : Machine → Machine) : Steady (modify f) :=
  fun _ h => by cases h

theorem steady_record (level : Int) (event : Heap → Except Fault Event) :
    Steady (record level event) := by
  intro m h
  rw [Starves, on_record] at h
  split at h
  · split at h <;> cases h
  · cases h

theorem elementary_steady : Elementary Steady where
  pure := steady_pure
  fail := steady_fail
  bind := steady_bind
  look _ := steady_bind (fun _ h => by cases h) fun _ => steady_lift _
  bindName _ _ := steady_bind (steady_lift _) fun _ => steady_modify _
  print _ := steady_modify _
  newId _ h := by cases h
  allocate _ _ h := by cases h
  changeHeap _ := steady_bind (fun _ h => by cases h) fun _ =>
    steady_bind (steady_lift _) fun _ => steady_modify _
  record _ _ := steady_record _ _

/-- A second action that needs no fuel does not starve. -/
theorem starves_of_bind {x : Action α} {f : α → Action β} (h : Starves (x >>= f) m)
    (hf : ∀ a, Steady (f a)) : Starves x m := by
  rcases starves_bind h with h | ⟨a, m', -, h⟩
  · exact h
  · exact absurd h (hf a m')

theorem exists_of_starves_collect {f : α → Action β} {items : List α}
    (h : Starves (collect f items) m) :
    ∃ before a after bs m', items = before ++ a :: after ∧
      (collect f before).on m = (.ok bs, m') ∧ Starves (f a) m' := by
  induction items generalizing m with
  | nil => cases h
  | cons a rest ih =>
    rcases starves_bind h with h | ⟨b, m₁, ha, h⟩
    · exact ⟨[], a, rest, [], m, rfl, rfl, h⟩
    · obtain ⟨before, c, after, bs, m', hrest, hbefore, h⟩ :=
        ih (starves_of_bind h fun _ => steady_pure _)
      refine ⟨a :: before, c, after, b :: bs, m', by rw [hrest]; rfl, ?_, h⟩
      rw [collect, on_bind, ha]
      simp only
      rw [on_bind, hbefore]
      rfl

theorem exists_of_starves_forEach {f : α → Action Unit} {items : List α}
    (h : Starves (forEach f items) m) :
    ∃ before a after m', items = before ++ a :: after ∧
      (forEach f before).on m = (.ok (), m') ∧ Starves (f a) m' := by
  induction items generalizing m with
  | nil => cases h
  | cons a rest ih =>
    rcases starves_bind h with h | ⟨_, m₁, ha, h⟩
    · exact ⟨[], a, rest, m, rfl, rfl, h⟩
    · obtain ⟨before, c, after, m', hrest, hbefore, h⟩ := ih h
      refine ⟨a :: before, c, after, m', by rw [hrest]; rfl, ?_, h⟩
      rw [forEach, on_bind, ha]
      exact hbefore

/-- An action starves in a call if it does in the scope of the call. -/
theorem starves_of_inCall {x : Action α} {scope : Scope} (h : Starves (inCall scope x) m) :
    Starves x { m with scope } := by
  rw [Starves, on_inCall] at h
  rw [Starves]
  generalize x.on { m with scope } = r at h ⊢
  obtain ⟨r, m'⟩ := r
  cases r with
  | ok a => cases h
  | error s =>
    cases h
    rfl

end Starving

/-! ## Tasks that starve -/

namespace Task

def fuel : Task → Nat
  | evaluate f _ | execute f _ | executeAll f _ | repeatWhile f _ _ => f
  | fillFrom f _ _ _ _ | invoke f _ _ | opened f _ _ _ => f

/-- What falls from a task to those that it starts. A call that was opened has the fuel of its
body. -/
def weight : Task → Nat
  | opened f _ _ _ => 2 * f + 1
  | t => 2 * t.fuel

theorem Comes.weight_lt {t t' : Task} {m m' : Machine} (h : t.Comes m t' m') :
    t'.weight < t.weight := by
  cases h <;> simp only [weight, fuel] <;> omega

/-- The task stops for lack of fuel. -/
def Starves : Task → Machine → Prop
  | evaluate f n, m => Action.Starves (MiniAlgol.evaluate f n) m
  | execute f n, m => Action.Starves (MiniAlgol.execute f n) m
  | executeAll f body, m => Action.Starves (MiniAlgol.executeAll f body) m
  | repeatWhile f condition body, m =>
    Action.Starves (MiniAlgol.repeatWhile f condition body) m
  | fillFrom f name address index elements, m =>
    Action.Starves (MiniAlgol.fillFrom f name address index elements) m
  | invoke f name args, m => Action.Starves (MiniAlgol.invoke f name args) m
  | opened f r args start, m =>
    Action.Starves (finishCall r args start (MiniAlgol.executeAll f r.body)) m

/-- The task starts another one that starves. -/
def PassesOn (t : Task) (m : Machine) : Prop :=
  ∃ t' m', t.Comes m t' m' ∧ t'.Starves m'

section Passing

variable {f : Nat} {m : Machine} {name : Label}

theorem bind_locateTarget {α : Type} (indices : List Node) (k : Value → List Value → Action α) :
    (do
      let target ← lookUp name
      let is ← collect (MiniAlgol.evaluate f) indices
      k target is) = (do
      let found ← locateTarget f name indices
      k found.1 found.2) := by
  simp only [locateTarget, bind_assoc, pure_bind]

theorem exists_of_starves_locateTarget {indices : List Node}
    (h : Action.Starves (locateTarget f name indices) m) :
    ∃ before e after found m', indices = before ++ e :: after ∧
      (locateTarget f name before).on m = (.ok found, m') ∧
      Action.Starves (MiniAlgol.evaluate f e) m' := by
  rcases starves_bind h with h | ⟨target, m₁, htarget, h⟩
  · exact absurd h (elementary_steady.lookUp name m)
  · obtain ⟨before, e, after, is, m', hindices, hbefore, h⟩ :=
      exists_of_starves_collect (starves_of_bind h fun _ => steady_pure _)
    refine ⟨before, e, after, (target, is), m', hindices, ?_, h⟩
    rw [locateTarget, on_bind, htarget]
    simp only
    rw [on_bind, hbefore]
    rfl

theorem passesOn_evaluate {n : Node} (h : (evaluate (f + 1) n).Starves m) :
    (evaluate (f + 1) n).PassesOn m := by
  have H := elementary_steady
  cases n with
  | literal text kind => exact absurd h (H.lift _ m)
  | ident name => exact absurd h (H.lookUp name m)
  | binary cls op x y =>
    simp only [Starves, MiniAlgol.evaluate] at h
    rcases starves_bind h with h | ⟨a, m', ha, h⟩
    · exact ⟨_, _, .left, h⟩
    · exact ⟨_, _, .right ha, starves_of_bind h fun b => H.operate op a b⟩
  | arrayAccess name indices =>
    rw [Starves, evaluate_arrayAccess, bind_locateTarget] at h
    obtain ⟨before, e, after, found, m', rfl, hbefore, h⟩ :=
      exists_of_starves_locateTarget (starves_of_bind h fun _ =>
        H.bind (H.readElement name _ _) fun _ =>
          H.bind (steady_record _ _) fun _ => H.pure _)
    exact ⟨_, _, .index hbefore, h⟩
  | call name args =>
    simp only [Starves, MiniAlgol.evaluate] at h
    rcases starves_bind h with h | ⟨vs, m', hvs, h⟩
    · obtain ⟨before, e, after, vs, m', rfl, hbefore, h⟩ := exists_of_starves_collect h
      exact ⟨_, _, .argument hbefore, h⟩
    · exact ⟨_, _, .invocation hvs, h⟩
  | _ =>
    simp only [Starves, MiniAlgol.evaluate] at h
    exact absurd h (H.fail _ m)

/-- The initial value of a variable is what needs fuel of its declaration. -/
theorem starves_initialValue {tag : Tag} {init : Node}
    (h : Action.Starves (initialValue f tag name init) m) :
    init.isMissing = false ∧ Action.Starves (MiniAlgol.evaluate f init) m := by
  unfold initialValue at h
  cases hinit : init.isMissing with
  | true =>
    rw [hinit, if_pos rfl] at h
    cases h
  | false =>
    rw [hinit, if_neg (by decide)] at h
    exact ⟨rfl, starves_of_bind h fun _ =>
      elementary_steady.bind (elementary_steady.checkInitial _ _ _) fun _ => steady_pure _⟩

/-- The branch that a conditional takes is what needs fuel once the condition is tested. -/
theorem passesOn_branch {condition x y : Node} {b : Bool} {m' : Machine}
    (htest : (testIf f condition).on m = (.ok b, m'))
    (h : Action.Starves (if b then do
        let _ ← MiniAlgol.execute f x
        return none
      else if y.isMissing then return none
      else do
        let _ ← MiniAlgol.execute f y
        return (none : Option Value)) m') :
    (execute (f + 1) (.ifStmt condition x y)).PassesOn m := by
  cases b with
  | true => exact ⟨_, _, .thenBranch htest, starves_of_bind h fun _ => steady_pure _⟩
  | false =>
    cases hy : y.isMissing with
    | true =>
      rw [hy] at h
      cases h
    | false =>
      rw [hy] at h
      exact ⟨_, _, .elseBranch hy htest, starves_of_bind h fun _ => steady_pure _⟩

theorem passesOn_execute {n : Node} (h : (execute (f + 1) n).Starves m) :
    (execute (f + 1) n).PassesOn m := by
  have H := elementary_steady
  cases n with
  | varDecl tag name init =>
    rw [Starves, execute_varDecl] at h
    have h := starves_of_bind h fun _ => H.bind (H.bindName _ _) fun _ =>
      H.bind (steady_record _ _) fun _ => H.pure _
    obtain ⟨hinit, h⟩ := starves_initialValue h
    exact ⟨_, _, .initial hinit, h⟩
  | arrayDecl name elem extents init =>
    have hallocate : Steady (allocateArray elem extents) := H.bind (H.lift _) H.allocate
    rw [Starves, execute_arrayDecl] at h
    cases init with
    | none =>
      exact absurd h (H.bind hallocate (fun _ => H.bind (H.bindName _ _) fun _ =>
        H.bind (H.pure _) fun _ => H.bind (steady_record _ _) fun _ => H.pure _) m)
    | some elements =>
      have hdeclare : Steady (declareArray name elem extents elements.length) :=
        H.bind hallocate fun _ => H.bind (H.bindName _ _) fun _ =>
          H.bind (H.checkRoom name _ _) fun _ => H.pure _
      have hparts : ∀ {α : Type} (k : Action α), (do
          let address ← allocateArray elem extents
          bind name (.array address)
          initialElements f name address (some elements)
          k) = (do
          let address ← declareArray name elem extents elements.length
          MiniAlgol.fillFrom f name address 0 elements
          k) := by
        intro α k
        simp only [declareArray, initialElements, bind_assoc, pure_bind]
      rw [hparts] at h
      rcases starves_bind h with h | ⟨address, m', haddress, h⟩
      · exact absurd h (hdeclare m)
      · exact ⟨_, _, .elements haddress, starves_of_bind h fun _ =>
          H.bind (steady_record _ _) fun _ => H.pure _⟩
  | assign name value =>
    simp only [Starves, MiniAlgol.execute] at h
    exact ⟨_, _, .assigned, starves_of_bind h fun _ => H.bind (H.bindName _ _) fun _ =>
      H.bind (steady_record _ _) fun _ => H.pure _⟩
  | indexAssign name indices value =>
    simp only [Starves, MiniAlgol.execute] at h
    rw [bind_locateTarget] at h
    rcases starves_bind h with h | ⟨found, m', hfound, h⟩
    · obtain ⟨before, e, after, found, m', rfl, hbefore, h⟩ := exists_of_starves_locateTarget h
      exact ⟨_, _, .targetIndex hbefore, h⟩
    · exact ⟨_, _, .stored hfound, starves_of_bind h fun _ => H.bind (H.changeHeap _) fun _ =>
        H.bind (steady_record _ _) fun _ => H.pure _⟩
  | block body =>
    simp only [Starves, MiniAlgol.execute] at h
    exact ⟨_, _, .block, starves_of_bind h fun _ => H.pure _⟩
  | ifStmt condition x y =>
    rw [Starves, execute_ifStmt] at h
    rcases starves_bind h with h | ⟨b, m', htest, h⟩
    · exact ⟨_, _, .ifCondition, starves_of_bind h fun _ => H.bind (H.requireBool _ _) fun _ =>
        H.bind (steady_record _ _) fun _ => H.pure _⟩
    · exact passesOn_branch htest h
  | whileStmt condition x =>
    rw [Starves, execute_whileStmt] at h
    rcases starves_bind h with h | ⟨b, m', htest, h⟩
    · exact ⟨_, _, .whileCondition, starves_of_bind h fun _ => H.requireBool _ _⟩
    · cases b with
      | true => exact ⟨_, _, .passes htest, starves_of_bind h fun _ => H.pure _⟩
      | false => cases h
  | routineDecl kind name params body =>
    rw [Starves, execute_routineDecl] at h
    exact absurd h (H.bind (H.bind H.newId fun _ => H.bindName _ _)
      (fun _ => H.bind (steady_record _ _) fun _ => H.pure _) m)
  | returnStmt value =>
    simp only [Starves, MiniAlgol.execute] at h
    exact ⟨_, _, .returned, starves_of_bind h fun _ => H.bind (H.bindName _ _) fun _ => H.pure _⟩
  | exprStmt value =>
    simp only [Starves, MiniAlgol.execute] at h
    exact ⟨_, _, .expression, starves_of_bind h fun _ => H.pure _⟩
  | _ =>
    simp only [Starves, MiniAlgol.execute] at h
    exact absurd h (H.fail _ m)

theorem passesOn_executeAll {body : List Node} (h : (executeAll (f + 1) body).Starves m) :
    (executeAll (f + 1) body).PassesOn m := by
  obtain ⟨before, n, after, m', rfl, hbefore, h⟩ := exists_of_starves_forEach h
  exact ⟨_, _, .statement hbefore, starves_of_bind h fun _ => steady_pure _⟩

theorem passesOn_repeatWhile {condition x : Node}
    (h : (repeatWhile (f + 1) condition x).Starves m) :
    (repeatWhile (f + 1) condition x).PassesOn m := by
  have H := elementary_steady
  have hpass : MiniAlgol.repeatWhile (f + 1) condition x = (do
      let b ← (do
        let _ ← MiniAlgol.execute f x
        passTest (← MiniAlgol.evaluate f condition))
      if b then MiniAlgol.repeatWhile f condition x) := by
    simp only [repeatWhile_succ, bind_assoc]
  rw [Starves, hpass] at h
  rcases starves_bind h with h | ⟨b, m', hb, h⟩
  · rcases starves_bind h with h | ⟨result, m', hresult, h⟩
    · exact ⟨_, _, .pass, h⟩
    · exact ⟨_, _, .passCondition hresult, starves_of_bind h fun _ =>
        H.bind (steady_record _ _) fun _ => H.requireBool _ _⟩
  · cases b with
    | true => exact ⟨_, _, .again hb, h⟩
    | false => cases h

theorem passesOn_fillFrom {address index : Nat} {elements : List Node}
    (h : (fillFrom (f + 1) name address index elements).Starves m) :
    (fillFrom (f + 1) name address index elements).PassesOn m := by
  cases elements with
  | nil => cases h
  | cons e rest =>
    have hfirst : MiniAlgol.fillFrom (f + 1) name address index (e :: rest) = (do
        (do
          let v ← MiniAlgol.evaluate f e
          changeHeap fun heap => Heap.fill heap name address index v)
        MiniAlgol.fillFrom f name address (index + 1) rest) := by
      simp only [MiniAlgol.fillFrom, bind_assoc]
    rw [Starves, hfirst] at h
    rcases starves_bind h with h | ⟨_, m', hstored, h⟩
    · exact ⟨_, _, .element, starves_of_bind h fun _ => elementary_steady.changeHeap _⟩
    · exact ⟨_, _, .laterElements hstored, h⟩

theorem passesOn_invoke {args : List Value} (h : (invoke (f + 1) name args).Starves m) :
    (invoke (f + 1) name args).PassesOn m := by
  have H := elementary_steady
  rw [Starves, MiniAlgol.invoke_succ] at h
  rcases starves_bind h with h | ⟨callee, m', hcallee, h⟩
  · exact absurd h (H.callee name m)
  · unfold callValue at h
    split at h
    · exact absurd h (H.fail _ m')
    · exact absurd h (H.callBuiltin _ name args m')
    · split at h
      · next hlen =>
        unfold activate at h
        cases hstart : Scope.ofArguments _ args with
        | error f =>
          rw [hstart] at h
          cases h
        | ok start =>
          rw [hstart] at h
          exact ⟨_, _, .call hcallee hlen hstart, h⟩
      · exact absurd h (H.fail _ m')
    · exact absurd h (H.bind (H.typeName _) (fun _ => H.fail _) m')

theorem passesOn_opened {r : Routine} {args : List Value} {start : Scope}
    (h : (opened f r args start).Starves m) : (opened f r args start).PassesOn m := by
  rcases starves_bind h with h | ⟨_, m', hrecord, h⟩
  · exact absurd h (steady_record _ _ m)
  · have h := starves_of_bind h fun _ =>
      elementary_steady.bind (steady_record _ _) fun _ => steady_pure _
    exact ⟨_, _, .enter hrecord, starves_of_inCall h⟩

/-- What starves has no fuel, or starts something that starves. -/
theorem Starves.passesOn {t : Task} (h : t.Starves m) : t.fuel = 0 ∨ t.PassesOn m := by
  cases t with
  | opened f r args start => exact .inr (passesOn_opened h)
  | evaluate f n => cases f with
    | zero => exact .inl rfl
    | succ f => exact .inr (passesOn_evaluate h)
  | execute f n => cases f with
    | zero => exact .inl rfl
    | succ f => exact .inr (passesOn_execute h)
  | executeAll f body => cases f with
    | zero => exact .inl rfl
    | succ f => exact .inr (passesOn_executeAll h)
  | repeatWhile f condition body => cases f with
    | zero => exact .inl rfl
    | succ f => exact .inr (passesOn_repeatWhile h)
  | fillFrom f name address index elements => cases f with
    | zero => exact .inl rfl
    | succ f => exact .inr (passesOn_fillFrom h)
  | invoke f name args => cases f with
    | zero => exact .inl rfl
    | succ f => exact .inr (passesOn_invoke h)

end Passing

/-- What starves comes to a task without fuel. -/
theorem exists_visits_of_starves {t : Task} {m : Machine} (h : t.Starves m) :
    ∃ t' m', t.Visits m t' m' ∧ t'.fuel = 0 := by
  induction hweight : t.weight using Nat.strongRecOn generalizing t m with
  | ind weight ih =>
    subst hweight
    rcases h.passesOn with hfuel | ⟨t₁, m₁, hcomes, h₁⟩
    · exact ⟨t, m, .refl, hfuel⟩
    · obtain ⟨t', m', hvisits, hfuel⟩ := ih _ hcomes.weight_lt h₁ rfl
      exact ⟨t', m', .head hcomes hvisits, hfuel⟩

end Task

end MiniAlgol
