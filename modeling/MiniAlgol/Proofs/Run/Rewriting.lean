import MiniAlgol.Proofs.Run.Bodies

/-!
# Rewritten programs

`Node.mapBodies φ` rewrites the lists of statements in a tree. A rewriting is `Faithful` when the
statements of a rewritten list do what those of the list do, once this is known of the single
statements. The two runs may need different fuel, so they are compared by what they come to when
they end (`Mirrors`): whichever of the two is known to end, the other one ends as well, with other
bodies in the routines that it holds and nothing else changed.

`Faithful.runsTo` and `Faithful.exists_runsTo` say this of whole programs. The rewriting that
changes nothing says that more fuel changes nothing (`runProgram_of_le`).
-/

namespace MiniAlgol

open MiniAlgol.Action

variable {φ : List Node → List Node} {α β γ δ : Type}

/-! ## Rewritten trees -/

/-- The node with its lists of statements rewritten. -/
def Node.mapBodies (φ : List Node → List Node) : Node → Node
  | program body => program (φ body)
  | block body => block (φ body)
  | ifStmt condition thenBranch elseBranch =>
    ifStmt condition (thenBranch.mapBodies φ) (elseBranch.mapBodies φ)
  | whileStmt condition body => whileStmt condition (body.mapBodies φ)
  | routineDecl kind name params body => routineDecl kind name params (φ body)
  | n => n

namespace Node

variable {n : Node}

@[simp] theorem isMissing_mapBodies : (n.mapBodies φ).isMissing = n.isMissing := by
  cases n <;> rfl

@[simp] theorem kindName?_mapBodies : (n.mapBodies φ).kindName? = n.kindName? := by
  cases n <;> rfl

end Node

/-! ## Runs that are known to end -/

theorem Action.Starves.bind {x : Action α} {m : Machine} (h : x.Starves m) (f : α → Action β) :
    (x >>= f).Starves m := by
  rw [Starves] at h
  rw [Starves, on_bind]
  generalize x.on m = e at h ⊢
  rcases e with ⟨r, m'⟩
  cases h
  rfl

theorem Action.Starves.inCall {start : Scope} {x : Action α} {m : Machine}
    (h : x.Starves { m with scope := start }) : (inCall start x).Starves m := by
  rw [Starves] at h
  rw [Starves, on_inCall]
  generalize x.on { m with scope := start } = e at h ⊢
  rcases e with ⟨r, m'⟩
  cases h
  rfl

/-- Which of two runs is known to end with the fuel at hand. -/
inductive Known where
  | first
  | second

namespace Known

variable {k : Known} {f : Nat} {p q r : Nat → Prop}

/-- The run that is known to end does so. -/
def Ends (k : Known) (x : Action α) (m : Machine) (y : Action β) (n : Machine) : Prop :=
  match k with
  | first => ¬x.Starves m
  | second => ¬y.Starves n

/-- Of the first run: at the fuel at hand where it is known to end, and else with enough fuel. -/
def OnFirst (k : Known) (f : Nat) (p : Nat → Prop) : Prop :=
  match k with
  | first => p f
  | second => ∃ enough, ∀ g ≥ enough, p g

/-- Of the second run: at the fuel at hand where it is known to end, and else with as much. -/
def OnSecond (k : Known) (f : Nat) (p : Nat → Prop) : Prop :=
  match k with
  | first => ∀ g ≥ f, p g
  | second => p f

theorem OnFirst.all (h : ∀ g, p g) : k.OnFirst f p := by
  cases k with
  | first => exact h f
  | second => exact ⟨0, fun g _ => h g⟩

theorem OnSecond.all (h : ∀ g, p g) : k.OnSecond f p := by
  cases k with
  | first => exact fun g _ => h g
  | second => exact h f

theorem OnFirst.imp₂ (hp : k.OnFirst f p) (hq : k.OnFirst f q) (h : ∀ g, p g → q g → r g) :
    k.OnFirst f r := by
  cases k with
  | first => exact h f hp hq
  | second =>
    obtain ⟨enough, hp⟩ := hp
    obtain ⟨enough', hq⟩ := hq
    refine ⟨max enough enough', fun g hg => ?_⟩
    exact h g (hp g (le_of_max_le_left hg)) (hq g (le_of_max_le_right hg))

theorem OnSecond.imp₂ (hp : k.OnSecond f p) (hq : k.OnSecond f q) (h : ∀ g, p g → q g → r g) :
    k.OnSecond f r := by
  cases k with
  | first => exact fun g hg => h g (hp g hg) (hq g hg)
  | second => exact h f hp hq

theorem OnFirst.imp (hp : k.OnFirst f p) (h : ∀ g, p g → q g) : k.OnFirst f q :=
  hp.imp₂ hp fun g hg _ => h g hg

theorem OnSecond.imp (hp : k.OnSecond f p) (h : ∀ g, p g → q g) : k.OnSecond f q :=
  hp.imp₂ hp fun g hg _ => h g hg

theorem OnFirst.succ (h : k.OnFirst f fun g => p (g + 1)) : k.OnFirst (f + 1) p := by
  cases k with
  | first => exact h
  | second =>
    obtain ⟨enough, h⟩ := h
    refine ⟨enough + 1, fun g hg => ?_⟩
    obtain ⟨g, rfl⟩ := Nat.exists_eq_add_one_of_ne_zero (Nat.ne_of_gt (Nat.zero_lt_of_lt hg))
    exact h g (Nat.le_of_succ_le_succ hg)

theorem OnSecond.succ (h : k.OnSecond f fun g => p (g + 1)) : k.OnSecond (f + 1) p := by
  cases k with
  | first =>
    intro g hg
    obtain ⟨g, rfl⟩ := Nat.exists_eq_add_one_of_ne_zero (Nat.ne_of_gt (Nat.zero_lt_of_lt hg))
    exact h g (Nat.le_of_succ_le_succ hg)
  | second => exact h

end Known

/-! ## Mirrored runs -/

/-- When the run that is known to end does so, the other one ends as well, and the second one as
the first one does but with other bodies. -/
def Mirrors (φ : List Node → List Node) (k : Known) (f : Nat) (τ : α → β)
    (x : Nat → Action α) (y : Nat → Action β) : Prop :=
  ∀ m : Machine, k.Ends (x f) m (y f) (m.mapBodies φ) →
    ∃ e, k.OnFirst f (fun g => (x g).on m = e) ∧
      k.OnSecond f (fun g => (y g).on (m.mapBodies φ) = endMapBodies φ τ e)

namespace Mirrors

variable {k : Known} {f : Nat} {τ : α → β} {υ : γ → δ} {x : Nat → Action α} {y : Nat → Action β}

theorem of_commutes {x : Action α} {y : Action β} (h : Commutes φ τ x y) :
    Mirrors φ k f τ (fun _ => x) (fun _ => y) :=
  fun m _ => ⟨x.on m, .all fun _ => rfl, .all fun _ => h m⟩

theorem pure {a : α} {b : β} (h : b = τ a) :
    Mirrors φ k f τ (fun _ => Pure.pure a) (fun _ => Pure.pure b) :=
  of_commutes (.pure h)

theorem outOfFuel (hx : x 0 = throw .outOfFuel) (hy : y 0 = throw .outOfFuel) :
    Mirrors φ k 0 τ x y := by
  intro m hends
  cases k with
  | first =>
    rw [hx] at hends
    exact absurd rfl hends
  | second =>
    rw [hy] at hends
    exact absurd rfl hends

theorem succ (h : Mirrors φ k f τ (fun g => x (g + 1)) (fun g => y (g + 1))) :
    Mirrors φ k (f + 1) τ x y := by
  intro m hends
  obtain ⟨e, hfirst, hsecond⟩ := h m hends
  exact ⟨e, hfirst.succ, hsecond.succ⟩

theorem bind {u : Nat → α → Action γ} {v : Nat → β → Action δ} (hx : Mirrors φ k f τ x y)
    (hu : ∀ a, Mirrors φ k f υ (fun g => u g a) (fun g => v g (τ a))) :
    Mirrors φ k f υ (fun g => x g >>= u g) (fun g => y g >>= v g) := by
  intro m hends
  have hxends : k.Ends (x f) m (y f) (m.mapBodies φ) := by
    cases k with
    | first => exact fun hx => hends (hx.bind _)
    | second => exact fun hy => hends (hy.bind _)
  obtain ⟨⟨r, m₁⟩, hfirst, hsecond⟩ := hx m hxends
  cases r with
  | error s =>
    refine ⟨(.error s, m₁), hfirst.imp fun g hg => ?_, hsecond.imp fun g hg => ?_⟩
    · rw [on_bind, hg]
    · rw [on_bind, hg]
      rfl
  | ok a =>
    have huends : k.Ends (u f a) m₁ (v f (τ a)) (m₁.mapBodies φ) := by
      cases k with
      | first =>
        have hon : (x f).on m = (.ok a, m₁) := hfirst
        simp only [Known.Ends, Starves, on_bind, hon] at hends
        exact hends
      | second =>
        have hon : (y f).on (m.mapBodies φ) = (.ok (τ a), m₁.mapBodies φ) := hsecond
        simp only [Known.Ends, Starves, on_bind, hon] at hends
        exact hends
    obtain ⟨e, hfirst', hsecond'⟩ := hu a m₁ huends
    refine ⟨e, hfirst.imp₂ hfirst' fun g hg hg' => ?_, hsecond.imp₂ hsecond' fun g hg hg' => ?_⟩
    · rw [on_bind, hg]
      exact hg'
    · rw [on_bind, hg]
      exact hg'

/-- The results do not matter. -/
theorem discard (hx : Mirrors φ k f τ x y) :
    Mirrors φ k f id (fun g => do let _ ← x g) (fun g => do let _ ← y g) :=
  bind hx fun _ => pure rfl

theorem forEach {ξ : Type} {u v : Nat → ξ → Action Unit}
    (h : ∀ a, Mirrors φ k f id (fun g => u g a) (fun g => v g a)) (items : List ξ) :
    Mirrors φ k f id (fun g => MiniAlgol.forEach (u g) items)
      (fun g => MiniAlgol.forEach (v g) items) := by
  induction items with
  | nil => exact pure rfl
  | cons a rest ih => exact bind (h a) fun _ => ih

theorem collect {u v : Nat → Node → Action Value}
    (h : ∀ n, Mirrors φ k f (Value.mapBodies φ) (fun g => u g n) (fun g => v g n))
    (items : List Node) :
    Mirrors φ k f (List.map (Value.mapBodies φ)) (fun g => MiniAlgol.collect (u g) items)
      (fun g => MiniAlgol.collect (v g) items) := by
  induction items with
  | nil => exact pure rfl
  | cons n rest ih => exact bind (h n) fun v => bind ih fun vs => pure rfl

/-- A body runs in a scope of its own, which is part of what it comes to. -/
theorem inCall (start : Scope) (h : Mirrors φ k f τ x y) :
    Mirrors φ k f (Prod.map τ (Scope.mapBodies φ)) (fun g => Action.inCall start (x g))
      (fun g => Action.inCall (start.mapBodies φ) (y g)) := by
  intro m hends
  have hxends : k.Ends (x f) { m with scope := start } (y f)
      (Machine.mapBodies φ { m with scope := start }) := by
    cases k with
    | first => exact fun hx => hends hx.inCall
    | second => exact fun hy => hends hy.inCall
  obtain ⟨⟨r, m₁⟩, hfirst, hsecond⟩ := h { m with scope := start } hxends
  have hstart : ({ m.mapBodies φ with scope := start.mapBodies φ } : Machine) =
      Machine.mapBodies φ { m with scope := start } := rfl
  let closed : Machine := { m₁ with scope := m.scope, calls := m₁.calls.tail }
  cases r with
  | error s =>
    refine ⟨(.error s, closed), hfirst.imp fun g hg => ?_, hsecond.imp fun g hg => ?_⟩
    · rw [on_inCall, hg]
    · rw [on_inCall, hstart, hg]
      rfl
  | ok a =>
    refine ⟨(.ok (a, m₁.scope), closed), hfirst.imp fun g hg => ?_, hsecond.imp fun g hg => ?_⟩
    · rw [on_inCall, hg]
    · rw [on_inCall, hstart, hg]
      rfl

theorem activate {x y : Nat → Action Unit} (r : Routine) (args : List Value)
    (h : Mirrors φ k f id x y) :
    Mirrors φ k f (Value.mapBodies φ) (fun g => MiniAlgol.activate r args (x g))
      (fun g => MiniAlgol.activate (r.mapBody φ) (args.map (Value.mapBodies φ)) (y g)) := by
  refine bind (of_commutes (.lift (Scope.ofArguments_endMapped r.params args))) fun start => ?_
  refine bind (of_commutes (.change fun _ => rfl)) fun _ => ?_
  refine bind (of_commutes (.record fun heap => ?_)) fun _ => ?_
  · refine Value.mapM_listing_endMapped.bind ?_
    rintro _ texts rfl
    exact .ok rfl
  refine bind (inCall start h) ?_
  rintro ⟨_, scope⟩
  have hresult : ((scope.mapBodies φ).get? (.word Scope.resultWord)).getD .undefined =
      ((scope.get? (.word Scope.resultWord)).getD .undefined).mapBodies φ := by
    rw [Scope.get?_mapBodies]
    cases scope.get? (.word Scope.resultWord) <;> rfl
  simp only [Prod.map, hresult]
  exact bind (of_commutes (.recordListing _)) fun _ => pure rfl

end Mirrors

/-! ## Faithful rewritings -/

/-- Everything that runs with this fuel is mirrored. -/
structure MirrorsAt (φ : List Node → List Node) (k : Known) (f : Nat) : Prop where
  evaluate : ∀ n, Mirrors φ k f (Value.mapBodies φ) (fun g => evaluate g n) (fun g => evaluate g n)
  execute : ∀ n, Mirrors φ k f (Option.map (Value.mapBodies φ)) (fun g => execute g n)
    (fun g => execute g (n.mapBodies φ))
  executeAll : ∀ body, Mirrors φ k f id (fun g => executeAll g body)
    (fun g => executeAll g (φ body))
  repeatWhile : ∀ condition body, Mirrors φ k f id (fun g => repeatWhile g condition body)
    (fun g => repeatWhile g condition (body.mapBodies φ))
  fillFrom : ∀ name address index elements,
    Mirrors φ k f id (fun g => fillFrom g name address index elements)
      (fun g => fillFrom g name address index elements)
  invoke : ∀ name args, Mirrors φ k f (Value.mapBodies φ) (fun g => invoke g name args)
    (fun g => invoke g name (args.map (Value.mapBodies φ)))

/-- A rewritten list of statements does what the list does, once this is known of the single
statements, with no more fuel than each of them has. -/
def Faithful (φ : List Node → List Node) : Prop :=
  ∀ {k f}, (∀ g ≤ f, ∀ n, Mirrors φ k g (Option.map (Value.mapBodies φ)) (fun h => execute h n)
    (fun h => execute h (n.mapBodies φ))) →
  ∀ body, Mirrors φ k f id (fun g => executeAll (g + 1) body)
    (fun g => executeAll (g + 1) (φ body))

namespace MirrorsAt

variable {k : Known} {f : Nat} {name : Label} {v : Value} {is : List Value}

/-! ### One step down -/

theorem evaluate_succ (ih : MirrorsAt φ k f) (n : Node) :
    Mirrors φ k (f + 1) (Value.mapBodies φ) (fun g => MiniAlgol.evaluate g n)
      (fun g => MiniAlgol.evaluate g n) := by
  refine .succ ?_
  cases n with
  | literal text kind =>
    refine .of_commutes (.lift (.same (fun v hv => ?_) fun _ => value?_of_literalValue))
    exact Value.mapBodies_of_isScalar (Simulation.literalValue_ok hv)
  | ident name => exact .of_commutes .lookUp
  | binary cls op left right =>
    simp only [MiniAlgol.evaluate]
    exact .bind (ih.evaluate left) fun _ => .bind (ih.evaluate right) fun _ =>
      .of_commutes (.operate op)
  | arrayAccess name indices =>
    simp only [evaluate_arrayAccess]
    exact .bind (.of_commutes .lookUp) fun _ => .bind (.collect ih.evaluate indices) fun _ =>
      .bind (.of_commutes .readElement) fun _ => .bind (.of_commutes (.recordElement _)) fun _ =>
        .pure rfl
  | call name args =>
    simp only [MiniAlgol.evaluate]
    exact .bind (.collect ih.evaluate args) fun vs => ih.invoke name vs
  | _ =>
    simp only [MiniAlgol.evaluate]
    exact .of_commutes (.fail rfl)

theorem initialValue (ih : MirrorsAt φ k f) (tag : Tag) (name : Label) (init : Node) :
    Mirrors φ k f (Value.mapBodies φ) (fun g => MiniAlgol.initialValue g tag name init)
      (fun g => MiniAlgol.initialValue g tag name init) := by
  unfold MiniAlgol.initialValue
  cases init.isMissing with
  | true => exact .pure rfl
  | false =>
    exact .bind (ih.evaluate init) fun _ => .bind (.of_commutes (.checkInitial tag)) fun _ =>
      .pure rfl

theorem initialElements (ih : MirrorsAt φ k f) (name : Label) (address : Nat)
    (init : Option (List Node)) :
    Mirrors φ k f id (fun g => MiniAlgol.initialElements g name address init)
      (fun g => MiniAlgol.initialElements g name address init) := by
  cases init with
  | none => exact .pure rfl
  | some elements =>
    exact .bind (.of_commutes (.checkRoom address _)) fun _ => ih.fillFrom name address 0 elements

/-- The branches of a conditional are rewritten one by one. -/
theorem branch (ih : MirrorsAt φ k f) (b : Bool) (x y : Node) :
    Mirrors φ k f (Option.map (Value.mapBodies φ))
      (fun g =>
        if b then do
          let _ ← MiniAlgol.execute g x
          return none
        else if y.isMissing then return none
        else do
          let _ ← MiniAlgol.execute g y
          return none)
      (fun g =>
        if b then do
          let _ ← MiniAlgol.execute g (x.mapBodies φ)
          return none
        else if (y.mapBodies φ).isMissing then return none
        else do
          let _ ← MiniAlgol.execute g (y.mapBodies φ)
          return none) := by
  rw [Node.isMissing_mapBodies]
  cases b with
  | true => exact .bind (ih.execute x) fun _ => .pure rfl
  | false =>
    cases y.isMissing with
    | true => exact .pure rfl
    | false => exact .bind (ih.execute y) fun _ => .pure rfl

theorem execute_succ (ih : MirrorsAt φ k f) (n : Node) :
    Mirrors φ k (f + 1) (Option.map (Value.mapBodies φ)) (fun g => MiniAlgol.execute g n)
      (fun g => MiniAlgol.execute g (n.mapBodies φ)) := by
  refine .succ ?_
  cases n with
  | varDecl tag name init =>
    simp only [Node.mapBodies, execute_varDecl]
    exact .bind (ih.initialValue tag name init) fun _ => .bind (.of_commutes .bindName) fun _ =>
      .bind (.of_commutes (.recordListing _)) fun _ => .pure rfl
  | assign name value =>
    simp only [Node.mapBodies, MiniAlgol.execute]
    exact .bind (ih.evaluate value) fun _ => .bind (.of_commutes .bindName) fun _ =>
      .bind (.of_commutes (.recordListing _)) fun _ => .pure rfl
  | arrayDecl name elem extents init =>
    simp only [Node.mapBodies, execute_arrayDecl]
    refine .bind (.of_commutes (.allocateArray elem extents)) fun address =>
      .bind (.of_commutes .bindName) fun _ => .bind (ih.initialElements name address init) fun _ =>
        .bind (.of_commutes (.recordPlain fun f hf => ?_)) fun _ => .pure rfl
    rcases bind_error hf with hf | ⟨texts, -, hf⟩
    · obtain ⟨n, -, hn⟩ := exists_of_mapM_error hf
      rw [Value.integerText_error hn]
      rfl
    · cases hf
  | indexAssign name indices value =>
    simp only [Node.mapBodies, MiniAlgol.execute]
    exact .bind (.of_commutes .lookUp) fun _ => .bind (.collect ih.evaluate indices) fun _ =>
      .bind (ih.evaluate value) fun _ =>
        .bind (.of_commutes (.changeHeap fun _ => Heap.write_endMapped)) fun _ =>
          .bind (.of_commutes (.recordElement _)) fun _ => .pure rfl
  | block body =>
    simp only [Node.mapBodies, MiniAlgol.execute]
    exact .bind (ih.executeAll body) fun _ => .pure rfl
  | ifStmt condition thenBranch elseBranch =>
    simp only [Node.mapBodies, MiniAlgol.execute]
    exact .bind (ih.evaluate condition) fun _ => .bind (.of_commutes (.requireBool "if")) fun b =>
      .bind (.of_commutes (.recordCondition _)) fun _ => ih.branch b thenBranch elseBranch
  | whileStmt condition body =>
    simp only [Node.mapBodies, MiniAlgol.execute]
    refine .bind (ih.evaluate condition) fun _ =>
      .bind (.of_commutes (.requireBool "while")) fun b => ?_
    cases b with
    | true => exact .bind (ih.repeatWhile condition body) fun _ => .pure rfl
    | false => exact .pure rfl
  | routineDecl kind name params body =>
    simp only [Node.mapBodies, execute_routineDecl]
    refine .bind (.of_commutes (.declareRoutine ⟨name, params, body, kind.name⟩)) fun _ =>
      .bind (.of_commutes (.recordPlain fun f hf => ?_)) fun _ => .pure rfl
    rcases bind_error hf with hf | ⟨words, -, hf⟩
    · exact value?_of_wordsFrom hf
    · cases hf
  | returnStmt value =>
    simp only [Node.mapBodies, MiniAlgol.execute]
    exact .bind (ih.evaluate value) fun _ => .bind (.of_commutes .bindName) fun _ => .pure rfl
  | exprStmt value =>
    simp only [Node.mapBodies, MiniAlgol.execute]
    exact .bind (ih.evaluate value) fun _ => .pure rfl
  | _ =>
    simp only [Node.mapBodies, MiniAlgol.execute]
    exact .of_commutes (.fail rfl)

theorem repeatWhile_succ (ih : MirrorsAt φ k f) (condition body : Node) :
    Mirrors φ k (f + 1) id (fun g => MiniAlgol.repeatWhile g condition body)
      (fun g => MiniAlgol.repeatWhile g condition (body.mapBodies φ)) := by
  refine .succ ?_
  simp only [MiniAlgol.repeatWhile_succ]
  refine .bind (ih.execute body) fun _ => .bind (ih.evaluate condition) fun _ =>
    .bind (.of_commutes .passTest) fun b => ?_
  cases b with
  | true => exact ih.repeatWhile condition body
  | false => exact .pure rfl

theorem fillFrom_succ (ih : MirrorsAt φ k f) (name : Label) (address index : Nat)
    (elements : List Node) :
    Mirrors φ k (f + 1) id (fun g => MiniAlgol.fillFrom g name address index elements)
      (fun g => MiniAlgol.fillFrom g name address index elements) := by
  refine .succ ?_
  cases elements with
  | nil => exact .pure rfl
  | cons element rest =>
    simp only [MiniAlgol.fillFrom]
    exact .bind (ih.evaluate element) fun _ =>
      .bind (.of_commutes (.changeHeap fun _ => Heap.fill_endMapped)) fun _ =>
        ih.fillFrom name address (index + 1) rest

theorem callValue (ih : MirrorsAt φ k f) (name : Label) (args : List Value)
    (callee : Option Value) :
    Mirrors φ k f (Value.mapBodies φ) (fun g => MiniAlgol.callValue g name args callee)
      (fun g => MiniAlgol.callValue g name (args.map (Value.mapBodies φ))
        (callee.map (Value.mapBodies φ))) := by
  cases callee with
  | none => exact .of_commutes (.fail rfl)
  | some v =>
    cases v with
    | routine id r =>
      simp only [Option.map_some, Value.mapBodies, MiniAlgol.callValue, List.length_map]
      have hparams : (r.mapBody φ).params = r.params := rfl
      simp only [hparams]
      by_cases hlength : args.length = r.params.length
      · simp only [if_pos hlength]
        exact .activate r args (ih.executeAll r.body)
      · simp only [if_neg hlength]
        exact .of_commutes (.fail rfl)
    | builtin id b => exact .of_commutes (.callBuiltin b)
    | _ => exact .bind (.of_commutes .typeName) fun _ => .of_commutes (.fail rfl)

theorem invoke_succ (ih : MirrorsAt φ k f) (name : Label) (args : List Value) :
    Mirrors φ k (f + 1) (Value.mapBodies φ) (fun g => MiniAlgol.invoke g name args)
      (fun g => MiniAlgol.invoke g name (args.map (Value.mapBodies φ))) := by
  refine .succ ?_
  simp only [MiniAlgol.invoke_succ]
  exact .bind (.of_commutes .callee) fun callee => ih.callValue name args callee

theorem zero : MirrorsAt φ k 0 where
  evaluate _ := .outOfFuel rfl rfl
  execute _ := .outOfFuel rfl rfl
  executeAll _ := .outOfFuel rfl rfl
  repeatWhile _ _ := .outOfFuel rfl rfl
  fillFrom name address index elements := by
    cases elements with
    | nil =>
      simp only [fillFrom_nil]
      exact .pure rfl
    | cons element rest => exact .outOfFuel rfl rfl
  invoke _ _ := .outOfFuel rfl rfl

end MirrorsAt

/-- Everything that runs is mirrored when lists of statements are rewritten faithfully. -/
theorem Faithful.mirrorsAt {k : Known} (hφ : Faithful φ) (f : Nat) : MirrorsAt φ k f := by
  -- a list of statements asks for its statements at every fuel below
  induction f using Nat.strong_induction_on with
  | _ f ih =>
    cases f with
    | zero => exact .zero
    | succ f =>
      have below : MirrorsAt φ k f := ih f (Nat.lt_succ_self f)
      exact {
        evaluate := below.evaluate_succ
        execute := below.execute_succ
        executeAll := fun body =>
          .succ (hφ (fun g hg n => (ih g (Nat.lt_succ_of_le hg)).execute n) body)
        repeatWhile := below.repeatWhile_succ
        fillFrom := below.fillFrom_succ
        invoke := below.invoke_succ }

/-! ## Whole programs -/

theorem programBody_endMapped (program : Node) :
    EndMapped φ φ (programBody program) (programBody (program.mapBodies φ)) := by
  cases program with
  | program body => exact .ok rfl
  | routineDecl kind name params body => exact .ok rfl
  | whileStmt condition body =>
    simp only [programBody, Node.mapBodies, Node.kindName?_mapBodies]
    exact .error rfl
  | _ => exact .error rfl

theorem on_startRun_mapBodies (m : Machine) :
    (startRun.on (m.mapBodies φ)).2 = (startRun.on m).2.mapBodies φ := by
  by_cases hlevel : 0 < m.level
  · simp only [startRun, on_modify, if_pos hlevel,
      if_pos (show 0 < (m.mapBodies φ).level from hlevel)]
    rfl
  · simp only [startRun, on_modify, if_neg hlevel,
      if_neg (show ¬0 < (m.mapBodies φ).level from hlevel)]
    rfl

theorem Faithful.runProgram {k : Known} (hφ : Faithful φ) (f : Nat) (program : Node) :
    Mirrors φ k f id (fun g => runProgram g program)
      (fun g => runProgram g (program.mapBodies φ)) := by
  have hbody : Mirrors φ k f id (fun g => runBody g program)
      (fun g => runBody g (program.mapBodies φ)) :=
    .bind (.of_commutes (.lift (programBody_endMapped program))) (hφ.mirrorsAt f).executeAll
  intro m hends
  have hstarted := hbody (startRun.on m).2
  rw [← on_startRun_mapBodies] at hstarted
  obtain ⟨⟨r, m'⟩, hfirst, hsecond⟩ := hstarted (by cases k <;> exact hends)
  refine ⟨(r, { m' with tracing := false }), hfirst.imp fun g hg => ?_,
    hsecond.imp fun g hg => ?_⟩
  · rw [on_runProgram_runBody, hg]
  · rw [on_runProgram_runBody, hg]
    rfl

/-- With some fuel the program, run on a machine, ends so. -/
def RunsTo (program : Node) (m : Machine) (r : Except Fault Unit) (m' : Machine) : Prop :=
  ∃ fuel, (runProgram fuel program).on m = (r.mapError .fault, m')

theorem runsTo_of_ok {fuel : Nat} {program : Node} {m : Machine}
    (h : ((runProgram fuel program).on m).1 = .ok ()) :
    RunsTo program m (.ok ()) ((runProgram fuel program).on m).2 :=
  ⟨fuel, Prod.ext h rfl⟩

variable {program : Node} {m m' : Machine} {r : Except Fault Unit}

/-- What ends so does not lack fuel. -/
theorem not_starves {x : Action α} {r : Except Fault α} (h : x.on m = (r.mapError .fault, m')) :
    ¬x.Starves m := by
  rw [Starves, h]
  cases r <;> exact nofun

theorem endMapBodies_mapError (r : Except Fault Unit) (m : Machine) :
    endMapBodies φ id (r.mapError .fault, m) =
      ((r.mapError (Fault.mapBodies φ)).mapError .fault, m.mapBodies φ) := by
  cases r <;> rfl

/-- An end that has other bodies comes from one without them. -/
theorem exists_of_endMapBodies {e : Except Stop Unit × Machine}
    (h : (r.mapError .fault, m') = endMapBodies φ id e) :
    ∃ (r₁ : Except Fault Unit) (m₁ : Machine), e = (r₁.mapError .fault, m₁) ∧
      r = r₁.mapError (Fault.mapBodies φ) ∧ m' = m₁.mapBodies φ := by
  rcases e with ⟨⟨_ | _⟩ | _, m₁⟩
  · cases r <;> cases h
    exact ⟨.error _, m₁, rfl, rfl, rfl⟩
  · cases r <;> cases h
  · cases r <;> cases h
    exact ⟨.ok (), m₁, rfl, rfl, rfl⟩

/-- Where a program ends, the rewritten one ends in the same way. -/
theorem Faithful.runsTo (hφ : Faithful φ) (h : RunsTo program m r m') :
    RunsTo (program.mapBodies φ) (m.mapBodies φ) (r.mapError (Fault.mapBodies φ))
      (m'.mapBodies φ) := by
  obtain ⟨fuel, h⟩ := h
  obtain ⟨e, hfirst, hsecond⟩ := hφ.runProgram (k := .first) fuel program m (not_starves h)
  refine ⟨fuel, ?_⟩
  have hon : (MiniAlgol.runProgram fuel program).on m = e := hfirst
  rw [hsecond fuel le_rfl, ← hon, h, endMapBodies_mapError]

/-- Where a rewritten program ends, the program itself ends in the same way. -/
theorem Faithful.exists_runsTo (hφ : Faithful φ)
    (h : RunsTo (program.mapBodies φ) (m.mapBodies φ) r m') :
    ∃ r₁ m₁, RunsTo program m r₁ m₁ ∧ r = r₁.mapError (Fault.mapBodies φ) ∧
      m' = m₁.mapBodies φ := by
  obtain ⟨fuel, h⟩ := h
  obtain ⟨e, ⟨enough, hfirst⟩, hsecond⟩ := hφ.runProgram (k := .second) fuel program m
    (not_starves h)
  have hon : (MiniAlgol.runProgram fuel (program.mapBodies φ)).on (m.mapBodies φ)
      = endMapBodies φ id e := hsecond
  obtain ⟨r₁, m₁, rfl, hr, hm⟩ := exists_of_endMapBodies (h.symm.trans hon)
  exact ⟨r₁, m₁, ⟨enough, hfirst enough le_rfl⟩, hr, hm⟩

/-! ## More fuel -/

theorem Node.mapBodies_id : ∀ n : Node, n.mapBodies id = n
  | .ifStmt condition thenBranch elseBranch => by
    rw [mapBodies, mapBodies_id thenBranch, mapBodies_id elseBranch]
  | .whileStmt condition body => by rw [mapBodies, mapBodies_id body]
  | .missing | .program _ | .block _ | .varDecl .. | .arrayDecl .. | .assign .. => rfl
  | .indexAssign .. | .routineDecl .. | .returnStmt _ | .exprStmt _ | .literal .. => rfl
  | .ident _ | .binary .. | .arrayAccess .. | .call .. => rfl

theorem Value.mapBodies_id (v : Value) : v.mapBodies id = v := by
  cases v <;> rfl

theorem ArrayObject.mapBodies_id (x : ArrayObject) : x.mapBodies id = x :=
  (eq_mapBodies (.self fun v _ => (Value.mapBodies_id v).symm)).symm

theorem Machine.mapBodies_id (m : Machine) : m.mapBodies id = m := by
  have hscope : m.scope.mapBodies id = m.scope := by
    simp only [Scope.mapBodies, Value.mapBodies_id, List.map_id']
  have hheap : m.heap.mapBodies id = m.heap := by
    simp only [Heap.mapBodies, funext ArrayObject.mapBodies_id, Array.map_id']
  rw [mapBodies, hscope, hheap]

theorem endMapBodies_id (e : Except Stop α × Machine) : endMapBodies id id e = e := by
  rcases e with ⟨r, m⟩
  have hstop : ∀ s : Stop, s.mapBodies id = s := by
    intro s
    cases s with
    | outOfFuel => rfl
    | fault f => cases f <;> simp only [Stop.mapBodies, Fault.mapBodies, Value.mapBodies_id]
  cases r with
  | ok a => simp only [endMapBodies, Machine.mapBodies_id]; rfl
  | error s =>
    simp only [endMapBodies, Machine.mapBodies_id, Except.map, Except.mapError, hstop]

theorem faithful_id : Faithful id := by
  intro k f h body
  simp only [executeAll, id]
  refine .forEach (fun n => ?_) body
  have hn := h f le_rfl n
  rw [Node.mapBodies_id] at hn
  exact hn.discard

/-- With more fuel than an action needs to end it ends in the same way. -/
theorem Mirrors.on_of_le {τ : α → α} {x : Nat → Action α} {f g : Nat} {m : Machine} (hτ : τ = id)
    (hx : Mirrors id .first f τ x x) (hfg : f ≤ g) (h : ¬(x f).Starves m) :
    (x g).on m = (x f).on m := by
  subst hτ
  obtain ⟨e, hfirst, hsecond⟩ := hx m h
  have hon : (x f).on m = e := hfirst
  have hmore : (x g).on (m.mapBodies id) = endMapBodies id id e := hsecond g hfg
  rw [Machine.mapBodies_id, endMapBodies_id] at hmore
  rw [hmore, hon]

theorem evaluate_of_le {n : Node} {f g : Nat} {m : Machine} (hfg : f ≤ g)
    (h : ¬(evaluate f n).Starves m) : (evaluate g n).on m = (evaluate f n).on m :=
  ((faithful_id.mirrorsAt f).evaluate n).on_of_le (funext Value.mapBodies_id) hfg h

theorem execute_of_le {n : Node} {f g : Nat} {m : Machine} (hfg : f ≤ g)
    (h : ¬(execute f n).Starves m) : (execute g n).on m = (execute f n).on m := by
  have hmirrors := (faithful_id.mirrorsAt (k := .first) f).execute n
  rw [Node.mapBodies_id] at hmirrors
  refine hmirrors.on_of_le (funext fun v => ?_) hfg h
  cases v with
  | none => rfl
  | some v => exact congrArg some (Value.mapBodies_id v)

theorem runProgram_of_le {f g : Nat} (hfg : f ≤ g)
    (h : ¬(runProgram f program).Starves m) :
    (runProgram g program).on m = (runProgram f program).on m := by
  have hmirrors := faithful_id.runProgram (k := .first) f program
  rw [Node.mapBodies_id] at hmirrors
  exact hmirrors.on_of_le rfl hfg h

end MiniAlgol
