import MiniAlgol.Proofs.Run.Actions
import Mathlib.Data.List.Forall2

/-!
# Two runs side by side

A `Simulation` relates the machines of two runs of one tree, and the values of the one run to the
values of the other. What is related may grow while the runs go on, so everything is said at a
world, and worlds only move to later ones.

`Agrees` says of two actions that, started on related machines, they end alike: both with related
results, or both with related stops, and on related machines either way. The runs of a tree are
made of a few actions (look a name up, apply an operator, read or store an element, open a call and
so on), and `Lawful` asks that each of them agrees with itself. `Lawful.agrees` is the one
induction over runs: in a lawful simulation every expression, statement, loop and call agrees with
itself, at every fuel.

A property of single runs is the case of a simulation whose machines are equal.
-/

namespace MiniAlgol

open MiniAlgol.Action

/-! ## Agreement of two actions -/

/-- What relates two runs. -/
structure Simulation where
  /-- What is related so far. -/
  World : Type
  later : World → World → Prop
  machine : World → Machine → Machine → Prop
  value : World → Value → Value → Prop
  scope : World → Scope → Scope → Prop
  fault : World → Fault → Fault → Prop
  /-- Whether two arrays have room for a number of initial elements. -/
  room : World → Nat → Nat → Int → Prop
  /-- The expressions, statements and routines that the runs are made of. -/
  expression : Node → Prop
  statement : Node → Prop
  routine : Routine → Prop
  /-- The stops of the first run after which nothing is said of the second one. -/
  exempt : Stop → Prop
  later_refl : ∀ w, later w w
  later_trans : ∀ {u v w}, later u v → later v w → later u w
  value_later : ∀ {w w' v v'}, later w w' → value w v v' → value w' v v'
  scope_later : ∀ {w w' s s'}, later w w' → scope w s s' → scope w' s s'
  room_later : ∀ {w w' a a' count}, later w w' → room w a a' count → room w' a a' count

namespace Simulation

variable {S : Simulation} {w w' : S.World} {α β γ δ : Type}

/-- Two stops are alike when both are related faults or both came from too little fuel. -/
def stop (S : Simulation) (w : S.World) : Stop → Stop → Prop
  | .fault f, .fault g => S.fault w f g
  | .outOfFuel, .outOfFuel => True
  | _, _ => False

/-- The ends of two runs from related machines. -/
inductive Ends (S : Simulation) (w : S.World) (post : S.World → α → β → Prop) :
    Except Stop α × Machine → Except Stop β × Machine → Prop where
  | exempt {s : Stop} {m : Machine} {r : Except Stop β × Machine} (hs : S.exempt s) :
      Ends S w post (.error s, m) r
  | ok {w' : S.World} {a : α} {b : β} {m n : Machine} (hw : S.later w w')
      (hm : S.machine w' m n) (hpost : post w' a b) : Ends S w post (.ok a, m) (.ok b, n)
  | error {w' : S.World} {s t : Stop} {m n : Machine} (hw : S.later w w')
      (hm : S.machine w' m n) (hs : S.stop w' s t) : Ends S w post (.error s, m) (.error t, n)

/-- Two actions that end alike on all related machines from a world on. -/
def Agrees (S : Simulation) (w : S.World) (x : Action α) (y : Action β)
    (post : S.World → α → β → Prop) : Prop :=
  ∀ w' m n, S.later w w' → S.machine w' m n → S.Ends w' post (x.on m) (y.on n)

/-- Nothing is said of the results. -/
def any : S.World → α → β → Prop := fun _ _ _ => True

/-- The results are equal. -/
def same : S.World → α → α → Prop := fun _ a b => a = b

/-- Values related one by one. -/
def values (S : Simulation) (w : S.World) (vs vs' : List Value) : Prop :=
  List.Forall₂ (S.value w) vs vs'

/-- Values that may be missing, in both runs at once. -/
def optionalValue (S : Simulation) (w : S.World) (v v' : Option Value) : Prop :=
  Option.Rel (S.value w) v v'

/-- The events that runs record, with what is listed in them. -/
inductive Tells (S : Simulation) (w : S.World) :
    Int → (Heap → Except Fault Event) → (Heap → Except Fault Event) → Prop where
  | load {name : Label} {is is' : List Value} {v v' : Value}
      (his : S.values w is is') (hv : S.value w v v') :
      Tells S w 3
        (fun heap => return .load name.shown (← Value.listings heap is) (← v.listing heap))
        (fun heap => return .load name.shown (← Value.listings heap is') (← v'.listing heap))
  | store {name : Label} {is is' : List Value} {v v' : Value}
      (his : S.values w is is') (hv : S.value w v v') :
      Tells S w 3
        (fun heap => return .store name.shown (← Value.listings heap is) (← v.listing heap))
        (fun heap => return .store name.shown (← Value.listings heap is') (← v'.listing heap))
  | declare {name : Label} {tag : Tag} {v v' : Value} (hv : S.value w v v') :
      Tells S w 2 (fun heap => return .declare name.shown tag.name (← v.listing heap))
        (fun heap => return .declare name.shown tag.name (← v'.listing heap))
  | assign {name : Label} {v v' : Value} (hv : S.value w v v') :
      Tells S w 2 (fun heap => return .assign name.shown (← v.listing heap))
        (fun heap => return .assign name.shown (← v'.listing heap))
  | ifCondition (shown : String) :
      Tells S w 3 (fun _ => return .ifCondition shown) (fun _ => return .ifCondition shown)
  | whileCondition (shown : String) :
      Tells S w 3 (fun _ => return .whileCondition shown) (fun _ => return .whileCondition shown)
  | declareArray {name : Label} {elem : Tag} {extents : List Int} :
      Tells S w 2
        (fun _ =>
          return .declareArray name.shown elem.name (bracketed (← extents.mapM integerText)))
        (fun _ =>
          return .declareArray name.shown elem.name (bracketed (← extents.mapM integerText)))
  | call {r : Routine} {args args' : List Value} (hargs : S.values w args args') :
      Tells S w 1
        (fun heap =>
          return .call r.kind r.name.shown (", ".intercalate (← args.mapM (Value.listing heap))))
        (fun heap =>
          return .call r.kind r.name.shown (", ".intercalate (← args'.mapM (Value.listing heap))))
  | return {r : Routine} {v v' : Value} (hv : S.value w v v') :
      Tells S w 1 (fun heap => return .return r.name.shown (← v.listing heap))
        (fun heap => return .return r.name.shown (← v'.listing heap))
  | define {kind : RoutineKind} {name : Label} {params : List Label} {body : List Node}
      (hs : S.statement (.routineDecl kind name params body)) :
      Tells S w 2
        (fun _ => return .define kind.name name.shown (", ".intercalate (← wordsFrom 0 params)))
        (fun _ => return .define kind.name name.shown (", ".intercalate (← wordsFrom 0 params)))

/-- The laws of a simulation: parts of what runs may run, and every action that runs are made of
agrees with itself. -/
structure Lawful (S : Simulation) : Prop where
  expression_parts : ∀ {n}, S.expression n → ∀ e ∈ n.expressions, S.expression e
  statement_expressions : ∀ {n}, S.statement n → ∀ e ∈ n.expressions, S.expression e
  statement_parts : ∀ {n}, S.statement n → ∀ s ∈ n.statements, S.statement s
  routine_body : ∀ {r}, S.routine r → ∀ s ∈ r.body, S.statement s
  undefined : ∀ w, S.value w .undefined .undefined
  /-- A value that is no callable is related to no callable, and a callable to its like. -/
  callable : ∀ {w v v'}, S.value w v v' →
    (∃ i j r, v = .routine i r ∧ v' = .routine j r ∧ S.routine r) ∨
    (∃ i j b, v = .builtin i b ∧ v' = .builtin j b) ∨
    (v.isCallable = false ∧ v'.isCallable = false)
  notExpression : ∀ {w n}, S.expression n → n.isExpression = false →
    S.fault w (.notExpression n.kindName?) (.notExpression n.kindName?)
  notStatement : ∀ {w n}, S.statement n → n.isStatement = false →
    S.fault w (.notStatement n.kindName?) (.notStatement n.kindName?)
  notDeclared : ∀ w name, S.fault w (.notDeclared name) (.notDeclared name)
  notCallable : ∀ w name actual, S.fault w (.notCallable name actual) (.notCallable name actual)
  arity : ∀ w shown name expected actual,
    S.fault w (.arity shown name expected actual) (.arity shown name expected actual)
  literal : ∀ {w text kind}, S.expression (.literal text kind) →
    S.Agrees w (lift (literalValue text kind)) (lift (literalValue text kind)) S.value
  lookUp : ∀ {w n name}, S.expression n ∨ S.statement n → n.label? = some name →
    S.Agrees w (lookUp name) (lookUp name) S.value
  operate : ∀ {w cls op left right a a' b b'}, S.expression (.binary cls op left right) →
    S.value w a a' → S.value w b b' → S.Agrees w (operate op a b) (operate op a' b') S.value
  readElement : ∀ {w name indices t t' is is'}, S.expression (.arrayAccess name indices) →
    S.value w t t' → S.values w is is' → is.length = indices.length →
    S.Agrees w (readElement name t is) (readElement name t' is') S.value
  typeName : ∀ {w v v'}, S.value w v v' → S.Agrees w (typeName v) (typeName v') same
  requireBool : ∀ {w construct v v'}, S.value w v v' →
    S.Agrees w (requireBool construct v) (requireBool construct v')
      (fun _ b b' => b = b' ∧ v = .bool b ∧ v' = .bool b)
  passTest : ∀ {w v v'}, S.value w v v' → S.Agrees w (passTest v) (passTest v') same
  checkInitial : ∀ {w tag name v v'}, S.value w v v' →
    S.Agrees w (checkInitial tag name v) (checkInitial tag name v') any
  bind : ∀ {w n name v v'}, S.statement n → n.label? = some name → S.value w v v' →
    S.Agrees w (bind name v) (bind name v') any
  bindResult : ∀ {w v v'}, S.value w v v' →
    S.Agrees w (Action.bind Scope.resultWord v) (Action.bind Scope.resultWord v') any
  allocateArray : ∀ {w name elem extents init}, S.statement (.arrayDecl name elem extents init) →
    S.Agrees w (allocateArray elem extents) (allocateArray elem extents)
      (fun w a a' => S.value w (.array a) (.array a'))
  checkRoom : ∀ {w name a a' count}, S.value w (.array a) (.array a') →
    S.Agrees w (checkRoom name a count) (checkRoom name a' count) (fun w _ _ => S.room w a a' count)
  fill : ∀ {w name a a' count v v'} {index : Nat}, S.value w (.array a) (.array a') →
    S.room w a a' count → (index : Int) < count → S.value w v v' →
    S.Agrees w (changeHeap fun heap => Heap.fill heap name a index v)
      (changeHeap fun heap => Heap.fill heap name a' index v') any
  write : ∀ {w name indices value t t' is is' v v'}, S.statement (.indexAssign name indices value) →
    S.value w t t' → S.values w is is' → is.length = indices.length → S.value w v v' →
    S.Agrees w (changeHeap fun heap => Heap.write heap name t is v)
      (changeHeap fun heap => Heap.write heap name t' is' v') any
  declareRoutine : ∀ {w kind name params body}, S.statement (.routineDecl kind name params body) →
    S.Agrees w (declareRoutine name ⟨name, params, body, kind.name⟩)
      (declareRoutine name ⟨name, params, body, kind.name⟩) any
  record : ∀ {w level event event'}, S.Tells w level event event' →
    S.Agrees w (record level event) (record level event') any
  callee : ∀ {w name args}, S.expression (.call name args) →
    S.Agrees w (callee name) (callee name) S.optionalValue
  callBuiltin : ∀ {w b name args args'}, S.values w args args' →
    S.Agrees w (callBuiltin b name args) (callBuiltin b name args') S.value
  activate : ∀ {w r args args'} {x y : Action Unit}, S.routine r → S.values w args args' →
    args.length = r.params.length → S.Agrees w x y any →
    S.Agrees w (activate r args x) (activate r args' y) S.value

/-! ## Rules of agreement -/

/-- What agrees from a world on agrees from every later one on. -/
theorem Agrees.later {x : Action α} {y : Action β} {P : S.World → α → β → Prop}
    (h : S.Agrees w x y P) (hw : S.later w w') : S.Agrees w' x y P :=
  fun u m n hu hm => h u m n (S.later_trans hw hu) hm

theorem Agrees.pure {a : α} {b : β} {P : S.World → α → β → Prop}
    (h : ∀ w', S.later w w' → P w' a b) :
    S.Agrees w (Pure.pure a : Action α) (Pure.pure b : Action β) P :=
  fun w' _ _ hw hm => .ok (S.later_refl w') hm (h w' hw)

theorem Agrees.fail {f g : Fault} {P : S.World → α → β → Prop}
    (h : ∀ w', S.later w w' → S.fault w' f g) :
    S.Agrees w (fail f : Action α) (fail g : Action β) P :=
  fun w' _ _ hw hm => .error (S.later_refl w') hm (h w' hw)

theorem Agrees.bind {x : Action α} {y : Action β} {f : α → Action γ}
    {g : β → Action δ} {P : S.World → α → β → Prop} {Q : S.World → γ → δ → Prop}
    (hx : S.Agrees w x y P)
    (hf : ∀ w' a b, S.later w w' → P w' a b → S.Agrees w' (f a) (g b) Q) :
    S.Agrees w (x >>= f) (y >>= g) Q := by
  intro w₁ m n hw hm
  have hends := hx w₁ m n hw hm
  rw [on_bind, on_bind]
  generalize x.on m = l at hends
  generalize y.on n = r at hends
  cases hends with
  | exempt hs => exact .exempt hs
  | error hw₂ hm₂ hs => exact .error hw₂ hm₂ hs
  | @ok w₂ a b m₂ n₂ hw₂ hm₂ hpost =>
    have hrest := hf w₂ a b (S.later_trans hw hw₂) hpost w₂ m₂ n₂ (S.later_refl w₂) hm₂
    show S.Ends w₁ Q ((f a).on m₂) ((g b).on n₂)
    generalize (f a).on m₂ = l at hrest ⊢
    generalize (g b).on n₂ = r at hrest ⊢
    cases hrest with
    | exempt hs => exact .exempt hs
    | error hw₃ hm₃ hs => exact .error (S.later_trans hw₂ hw₃) hm₃ hs
    | ok hw₃ hm₃ hpost => exact .ok (S.later_trans hw₂ hw₃) hm₃ hpost

/-- A weaker statement of the results. -/
theorem Agrees.imp {x : Action α} {y : Action β} {P Q : S.World → α → β → Prop}
    (hx : S.Agrees w x y P) (h : ∀ w' a b, P w' a b → Q w' a b) : S.Agrees w x y Q := by
  intro w₁ m n hw hm
  have hends := hx w₁ m n hw hm
  generalize x.on m = l at hends ⊢
  generalize y.on n = r at hends ⊢
  cases hends with
  | exempt hs => exact .exempt hs
  | error hw₂ hm₂ hs => exact .error hw₂ hm₂ hs
  | ok hw₂ hm₂ hpost => exact .ok hw₂ hm₂ (h _ _ _ hpost)

theorem values_later {vs vs' : List Value} (hw : S.later w w')
    (h : S.values w vs vs') : S.values w' vs vs' :=
  h.imp fun _ _ => S.value_later hw

/-- Actions done in turn for the items of a list agree when each of them does. -/
theorem Agrees.forEach {f g : α → Action Unit} (items : List α)
    (h : ∀ a ∈ items, S.Agrees w (f a) (g a) any) :
    S.Agrees w (forEach f items) (forEach g items) any := by
  induction items generalizing w with
  | nil => exact Agrees.pure fun _ _ => trivial
  | cons a rest ih =>
    refine Agrees.bind (h a List.mem_cons_self) ?_
    intro w₁ _ _ hw₁ _
    exact ih fun b hb => (h b (List.mem_cons_of_mem a hb)).later hw₁

/-- The values collected from the items of a list are related one by one, and as many as the
items. -/
theorem Agrees.collect {f g : α → Action Value} (items : List α)
    (h : ∀ a ∈ items, S.Agrees w (f a) (g a) S.value) :
    S.Agrees w (collect f items) (collect g items)
      (fun w vs vs' => S.values w vs vs' ∧ vs.length = items.length) := by
  induction items generalizing w with
  | nil => exact Agrees.pure fun _ _ => ⟨.nil, rfl⟩
  | cons a rest ih =>
    refine Agrees.bind (h a List.mem_cons_self) ?_
    intro w₁ v v' hw₁ hv
    refine Agrees.bind (ih fun b hb => (h b (List.mem_cons_of_mem a hb)).later hw₁) ?_
    intro w₂ vs vs' hw₂ hvs
    refine Agrees.pure fun w₃ hw₃ => ⟨.cons ?_ (values_later hw₃ hvs.1), ?_⟩
    · exact S.value_later (S.later_trans hw₂ hw₃) hv
    · simp [hvs.2]

/-! ## Runs agree -/

/-- Fuels under which two runs are compared: equal ones, or more for the second run where nothing
is said of a first run that had too little. -/
def Fuels (S : Simulation) (f g : Nat) : Prop :=
  f = g ∨ f ≤ g ∧ S.exempt .outOfFuel

/-- Everything that runs with these fuels agrees. -/
structure AgreesAt (S : Simulation) (f g : Nat) : Prop where
  evaluate : ∀ {w n}, S.expression n → S.Agrees w (evaluate f n) (evaluate g n) S.value
  execute : ∀ {w n}, S.statement n → S.Agrees w (execute f n) (execute g n) S.optionalValue
  executeAll : ∀ {w body}, (∀ n ∈ body, S.statement n) →
    S.Agrees w (executeAll f body) (executeAll g body) any
  repeatWhile : ∀ {w condition body}, S.expression condition → S.statement body →
    S.Agrees w (repeatWhile f condition body) (repeatWhile g condition body) any
  fillFrom : ∀ {w name a a' count} {index : Nat} {elements}, S.value w (.array a) (.array a') →
    S.room w a a' count → (index + elements.length : Int) ≤ count →
    (∀ e ∈ elements, S.expression e) →
    S.Agrees w (fillFrom f name a index elements) (fillFrom g name a' index elements) any
  invoke : ∀ {w name nodes args args'}, S.expression (.call name nodes) → S.values w args args' →
    S.Agrees w (invoke f name args) (invoke g name args') S.value

/-- Without fuel both runs stop, or the first one does and nothing is said. -/
theorem Agrees.outOfFuel {y : Action β} {P : S.World → α → β → Prop}
    (h : S.exempt .outOfFuel ∨ y = throw .outOfFuel) :
    S.Agrees w (throw .outOfFuel : Action α) y P := by
  intro w' m n hw hm
  rcases h with h | rfl
  · exact .exempt h
  · exact .error (S.later_refl w') hm trivial

section Step

variable {f g : Nat}

theorem evaluate_step (L : S.Lawful) (ih : S.AgreesAt f g) {n : Node} (hn : S.expression n) :
    S.Agrees w (evaluate (f + 1) n) (evaluate (g + 1) n) S.value := by
  have hparts := L.expression_parts hn
  cases n with
  | literal text kind => exact L.literal hn
  | ident name => exact L.lookUp (.inl hn) rfl
  | binary cls op left right =>
    simp only [evaluate]
    refine Agrees.bind (ih.evaluate (hparts left (by simp [Node.expressions]))) ?_
    intro w₁ a a' hw₁ ha
    -- the left operand was related before the right one was evaluated
    refine Agrees.bind (ih.evaluate (hparts right (by simp [Node.expressions]))) ?_
    intro w₂ b b' hw₂ hb
    exact L.operate hn (S.value_later hw₂ ha) hb
  | arrayAccess name indices =>
    rw [evaluate_arrayAccess, evaluate_arrayAccess]
    refine Agrees.bind (L.lookUp (.inl hn) rfl) ?_
    intro w₁ t t' hw₁ ht
    refine Agrees.bind (Agrees.collect indices fun e he => ih.evaluate (hparts e he)) ?_
    rintro w₂ is is' hw₂ ⟨his, hlen⟩
    refine Agrees.bind (L.readElement hn (S.value_later hw₂ ht) his hlen) ?_
    intro w₃ v v' hw₃ hv
    refine Agrees.bind (L.record (.load (values_later hw₃ his) hv)) ?_
    intro w₄ _ _ hw₄ _
    exact Agrees.pure fun w₅ hw₅ => S.value_later (S.later_trans hw₄ hw₅) hv
  | call name args =>
    simp only [evaluate]
    refine Agrees.bind (Agrees.collect args fun e he => ih.evaluate (hparts e he)) ?_
    rintro w₁ vs vs' hw₁ ⟨hvs, _⟩
    exact ih.invoke hn hvs
  | _ =>
    simp only [evaluate]
    exact Agrees.fail fun _ _ => L.notExpression hn rfl

theorem initialValue_agrees (L : S.Lawful) (ih : S.AgreesAt f g) {tag : Tag} {name : Label}
    {init : Node} (hinit : init.isMissing = false → S.expression init) :
    S.Agrees w (initialValue f tag name init) (initialValue g tag name init) S.value := by
  unfold initialValue
  cases hmissing : init.isMissing with
  | true => exact Agrees.pure fun w' _ => L.undefined w'
  | false =>
    refine Agrees.bind (ih.evaluate (hinit hmissing)) ?_
    intro w₁ v v' hw₁ hv
    refine Agrees.bind (L.checkInitial hv) ?_
    intro w₂ _ _ hw₂ _
    exact Agrees.pure fun w₃ hw₃ => S.value_later (S.later_trans hw₂ hw₃) hv

theorem initialElements_agrees (L : S.Lawful) (ih : S.AgreesAt f g) {name : Label} {a a' : Nat}
    {init : Option (List Node)} (ha : S.value w (.array a) (.array a'))
    (hinit : ∀ e ∈ init.getD [], S.expression e) :
    S.Agrees w (initialElements f name a init) (initialElements g name a' init) any := by
  cases init with
  | none => exact Agrees.pure fun _ _ => trivial
  | some elements =>
    refine Agrees.bind (L.checkRoom ha) ?_
    intro w₁ _ _ hw₁ hroom
    exact ih.fillFrom (S.value_later hw₁ ha) hroom (by simp) hinit

/-- The branches of a conditional, the second of which may be missing. -/
theorem branch_agrees (ih : S.AgreesAt f g) {b : Bool} {x y : Node}
    (hx : S.statement x) (hy : y.isMissing = false → S.statement y) :
    S.Agrees w
      (if b then do
        let _ ← execute f x
        return none
      else if y.isMissing then return none
      else do
        let _ ← execute f y
        return none)
      (if b then do
        let _ ← execute g x
        return none
      else if y.isMissing then return none
      else do
        let _ ← execute g y
        return none) S.optionalValue := by
  cases b with
  | true => exact Agrees.bind (ih.execute hx) fun _ _ _ _ _ => Agrees.pure fun _ _ => .none
  | false =>
    cases hmissing : y.isMissing with
    | true => exact Agrees.pure fun _ _ => .none
    | false =>
      exact Agrees.bind (ih.execute (hy hmissing)) fun _ _ _ _ _ =>
        Agrees.pure fun _ _ => .none

theorem execute_step (L : S.Lawful) (ih : S.AgreesAt f g) {n : Node} (hn : S.statement n) :
    S.Agrees w (execute (f + 1) n) (execute (g + 1) n) S.optionalValue := by
  have hexprs := L.statement_expressions hn
  have hstmts := L.statement_parts hn
  -- a statement without a result ends in `return none`
  have hnone : ∀ {w : S.World},
      S.Agrees w (pure none : Action (Option Value)) (pure none) S.optionalValue :=
    Agrees.pure fun _ _ => .none
  cases n with
  | varDecl tag name init =>
    rw [execute_varDecl, execute_varDecl]
    refine Agrees.bind (initialValue_agrees L ih fun hmissing => hexprs init ?_) ?_
    · simp [Node.expressions, hmissing]
    · intro w₁ v v' hw₁ hv
      refine Agrees.bind (L.bind hn rfl hv) ?_
      intro w₂ _ _ hw₂ _
      exact Agrees.bind (L.record (.declare (S.value_later hw₂ hv))) fun _ _ _ _ _ => hnone
  | assign name value =>
    simp only [execute]
    refine Agrees.bind (ih.evaluate (hexprs value (by simp [Node.expressions]))) ?_
    intro w₁ v v' hw₁ hv
    refine Agrees.bind (L.bind hn rfl hv) ?_
    intro w₂ _ _ hw₂ _
    exact Agrees.bind (L.record (.assign (S.value_later hw₂ hv))) fun _ _ _ _ _ => hnone
  | arrayDecl name elem extents init =>
    rw [execute_arrayDecl, execute_arrayDecl]
    refine Agrees.bind (L.allocateArray hn) ?_
    intro w₁ a a' hw₁ ha
    -- the name is bound before the initial elements, which may refer to it
    refine Agrees.bind (L.bind hn rfl ha) ?_
    intro w₂ _ _ hw₂ _
    refine Agrees.bind (initialElements_agrees L ih (S.value_later hw₂ ha) hexprs) ?_
    intro w₃ _ _ hw₃ _
    exact Agrees.bind (L.record .declareArray) fun _ _ _ _ _ => hnone
  | indexAssign name indices value =>
    simp only [execute]
    refine Agrees.bind (L.lookUp (.inr hn) rfl) ?_
    intro w₁ t t' hw₁ ht
    refine Agrees.bind (Agrees.collect indices fun e he =>
      ih.evaluate (hexprs e (List.mem_cons_of_mem _ he))) ?_
    rintro w₂ is is' hw₂ ⟨his, hlen⟩
    refine Agrees.bind (ih.evaluate (hexprs value List.mem_cons_self)) ?_
    intro w₃ v v' hw₃ hv
    refine Agrees.bind (L.write hn (S.value_later (S.later_trans hw₂ hw₃) ht)
      (values_later hw₃ his) hlen hv) ?_
    intro w₄ _ _ hw₄ _
    exact Agrees.bind (L.record (.store (values_later (S.later_trans hw₃ hw₄) his)
      (S.value_later hw₄ hv))) fun _ _ _ _ _ => hnone
  | block body =>
    simp only [execute]
    exact Agrees.bind (ih.executeAll hstmts) fun _ _ _ _ _ => hnone
  | ifStmt condition thenBranch elseBranch =>
    simp only [execute]
    refine Agrees.bind (ih.evaluate (hexprs condition (by simp [Node.expressions]))) ?_
    intro w₁ v v' hw₁ hv
    refine Agrees.bind (L.requireBool hv) ?_
    rintro w₂ b _ hw₂ ⟨rfl, rfl, rfl⟩
    rw [plainText_bool]
    refine Agrees.bind (L.record (.ifCondition _)) ?_
    intro w₃ _ _ hw₃ _
    refine branch_agrees ih (hstmts thenBranch ?_) fun hmissing => hstmts elseBranch ?_
    · simp only [Node.statements]
      split <;> simp
    · simp [Node.statements, hmissing]
  | whileStmt condition body =>
    simp only [execute]
    have hcondition := hexprs condition (by simp [Node.expressions])
    refine Agrees.bind (ih.evaluate hcondition) ?_
    intro w₁ v v' hw₁ hv
    refine Agrees.bind (L.requireBool hv) ?_
    rintro w₂ b _ hw₂ ⟨rfl, -⟩
    -- the first test stands apart from the passes
    cases b with
    | false => exact hnone
    | true =>
      refine Agrees.bind (ih.repeatWhile hcondition (hstmts body ?_)) fun _ _ _ _ _ => hnone
      simp [Node.statements]
  | routineDecl kind name params body =>
    rw [execute_routineDecl, execute_routineDecl]
    refine Agrees.bind (L.declareRoutine hn) ?_
    intro w₁ _ _ hw₁ _
    exact Agrees.bind (L.record (.define hn)) fun _ _ _ _ _ => hnone
  | returnStmt value =>
    simp only [execute]
    refine Agrees.bind (ih.evaluate (hexprs value (by simp [Node.expressions]))) ?_
    intro w₁ v v' hw₁ hv
    refine Agrees.bind (L.bindResult hv) ?_
    intro w₂ _ _ hw₂ _
    exact Agrees.pure fun w₃ hw₃ => .some (S.value_later (S.later_trans hw₂ hw₃) hv)
  | exprStmt value =>
    simp only [execute]
    refine Agrees.bind (ih.evaluate (hexprs value (by simp [Node.expressions]))) ?_
    intro w₁ v v' hw₁ hv
    exact Agrees.pure fun w₂ hw₂ => .some (S.value_later hw₂ hv)
  | _ =>
    simp only [execute]
    exact Agrees.fail fun _ _ => L.notStatement hn rfl

theorem repeatWhile_step (L : S.Lawful) (ih : S.AgreesAt f g) {condition body : Node}
    (hcondition : S.expression condition) (hbody : S.statement body) :
    S.Agrees w (repeatWhile (f + 1) condition body) (repeatWhile (g + 1) condition body) any := by
  rw [repeatWhile_succ, repeatWhile_succ]
  refine Agrees.bind (ih.execute hbody) ?_
  intro w₁ _ _ hw₁ _
  refine Agrees.bind (ih.evaluate hcondition) ?_
  intro w₂ v v' hw₂ hv
  refine Agrees.bind (L.passTest hv) ?_
  rintro w₃ b _ hw₃ rfl
  cases b with
  | false => exact Agrees.pure fun _ _ => trivial
  | true => exact ih.repeatWhile hcondition hbody

theorem fillFrom_step (L : S.Lawful) (ih : S.AgreesAt f g) {name : Label} {a a' index : Nat}
    {count : Int} {elements : List Node} (ha : S.value w (.array a) (.array a'))
    (hroom : S.room w a a' count) (hcount : (index + elements.length : Int) ≤ count)
    (helements : ∀ e ∈ elements, S.expression e) :
    S.Agrees w (fillFrom (f + 1) name a index elements) (fillFrom (g + 1) name a' index elements)
      any := by
  cases elements with
  | nil => exact Agrees.pure fun _ _ => trivial
  | cons element rest =>
    simp only [List.length_cons] at hcount
    simp only [fillFrom]
    refine Agrees.bind (ih.evaluate (helements element List.mem_cons_self)) ?_
    intro w₁ v v' hw₁ hv
    refine Agrees.bind (L.fill (S.value_later hw₁ ha) (S.room_later hw₁ hroom) (by omega) hv) ?_
    intro w₂ _ _ hw₂ _
    have hw := S.later_trans hw₁ hw₂
    refine ih.fillFrom (S.value_later hw ha) (S.room_later hw hroom) ?_ fun e he =>
      helements e (List.mem_cons_of_mem _ he)
    omega

theorem callValue_agrees (L : S.Lawful) (ih : S.AgreesAt f g) (name : Label)
    {args args' : List Value} {v v' : Option Value} (hv : S.optionalValue w v v')
    (hargs : S.values w args args') :
    S.Agrees w (callValue f name args v) (callValue g name args' v') S.value := by
  cases hv with
  | none => exact Agrees.fail fun w' _ => L.notDeclared w' name
  | @some v v' hv =>
    obtain ⟨i, j, r, rfl, rfl, hr⟩ | ⟨i, j, b, rfl, rfl⟩ | ⟨hcall, hcall'⟩ := L.callable hv
    · have hlen : args'.length = args.length := hargs.length_eq.symm
      simp only [callValue, hlen]
      split
      · rename_i harity
        exact L.activate hr hargs harity (ih.executeAll (L.routine_body hr))
      · exact Agrees.fail fun w' _ => L.arity w' _ _ _ _
    · exact L.callBuiltin hargs
    · rw [callValue_other f name args hcall, callValue_other g name args' hcall']
      refine Agrees.bind (L.typeName hv) ?_
      rintro w₂ actual _ hw₂ rfl
      exact Agrees.fail fun w' _ => L.notCallable w' name actual

theorem invoke_step (L : S.Lawful) (ih : S.AgreesAt f g) {name : Label} {nodes : List Node}
    {args args' : List Value} (hn : S.expression (.call name nodes))
    (hargs : S.values w args args') :
    S.Agrees w (invoke (f + 1) name args) (invoke (g + 1) name args') S.value := by
  rw [invoke_succ, invoke_succ]
  refine Agrees.bind (L.callee hn) ?_
  intro w₁ v v' hw₁ hv
  exact callValue_agrees L ih name hv (values_later hw₁ hargs)

/-- One more unit of fuel for both runs keeps them in agreement. -/
theorem AgreesAt.step (L : S.Lawful) (ih : S.AgreesAt f g) : S.AgreesAt (f + 1) (g + 1) where
  evaluate := evaluate_step L ih
  execute := execute_step L ih
  executeAll hbody := by
    refine Agrees.forEach _ fun n hn => ?_
    exact Agrees.bind (ih.execute (hbody n hn)) fun _ _ _ _ _ => Agrees.pure fun _ _ => trivial
  repeatWhile := repeatWhile_step L ih
  fillFrom := fillFrom_step L ih
  invoke := invoke_step L ih

end Step

/-- Nothing runs without fuel. -/
theorem AgreesAt.zero {g : Nat} (hg : S.Fuels 0 g) : S.AgreesAt 0 g := by
  have hstop : S.exempt .outOfFuel ∨ g = 0 := hg.elim (fun h => .inr h.symm) fun h => .inl h.2
  refine ⟨fun _ => ?_, fun _ => ?_, fun _ => ?_, fun _ _ => ?_,
    @fun _ _ _ _ _ _ elements _ _ _ _ => ?_, fun _ _ => ?_⟩
  -- an empty list of initial elements is the one thing that needs no fuel
  case refine_5 =>
    cases elements with
    | nil =>
      rw [fillFrom_nil, fillFrom_nil]
      exact Agrees.pure fun _ _ => trivial
    | cons element rest => exact Agrees.outOfFuel (hstop.imp_right (by rintro rfl; rfl))
  all_goals exact Agrees.outOfFuel (hstop.imp_right (by rintro rfl; rfl))

/-- Runs of one tree agree in every lawful simulation. -/
theorem Lawful.agrees (L : S.Lawful) : ∀ {f g : Nat}, S.Fuels f g → S.AgreesAt f g
  -- both runs go one level down at a time, so equal fuel stays equal and less stays less
  | 0, _, h => AgreesAt.zero h
  | f + 1, 0, h => by
    rcases h with h | h
    · cases h
    · exact absurd h.1 (Nat.not_succ_le_zero f)
  | f + 1, g + 1, h => by
    refine AgreesAt.step L (L.agrees ?_)
    exact h.imp Nat.succ.inj fun h => ⟨Nat.le_of_succ_le_succ h.1, h.2⟩

end Simulation

end MiniAlgol
