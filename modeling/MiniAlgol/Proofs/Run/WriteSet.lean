import MiniAlgol.Proofs.Run.Scopes

/-!
# What a statement can write

The names that running a statement can give a value are written in it (`Node.targets`): those that
it declares or assigns, and the name of the result if it has a `return`, but nothing of the bodies
of the routines that it declares. `runs_write_targets` says so of every run, however it ends, and
that evaluating an expression gives no name a value; without a call in it an expression stores and
prints nothing either.

Calls are where this could fail, since their bodies assign too. They run in scopes of their own,
so the scope around a call is the same after it (`keeps_scope_of_blind`), and no induction over
what is called is needed.
-/

namespace MiniAlgol

open MiniAlgol.Action

/-! ## Targets -/

namespace Node

mutual

/-- The labels that a statement gives values in the scope that it runs in. -/
def targets : Node → List Label
  | varDecl _ name _ => [name]
  | arrayDecl name _ _ _ => [name]
  | assign name _ => [name]
  | routineDecl _ name _ _ => [name]
  | returnStmt _ => [.str Scope.resultWord]
  | block body => targetsOfAll body
  | ifStmt _ thenBranch elseBranch => targets thenBranch ++ targets elseBranch
  | whileStmt _ body => targets body
  | _ => []

/-- The targets of statements in a row. -/
def targetsOfAll : List Node → List Label
  | [] => []
  | n :: ns => targets n ++ targetsOfAll ns

end

mutual

/-- Whether evaluating an expression comes to a call. -/
def hasCall : Node → Bool
  | call _ _ => true
  | binary _ _ left right => hasCall left || hasCall right
  | arrayAccess _ indices => anyHasCall indices
  | _ => false

/-- Whether an expression of a list has a call. -/
def anyHasCall : List Node → Bool
  | [] => false
  | n :: ns => hasCall n || anyHasCall ns

end

theorem hasCall_of_mem {n : Node} {ns : List Node} (hn : n ∈ ns) (hcall : n.hasCall) :
    anyHasCall ns := by
  induction ns with
  | nil => cases hn
  | cons first ns ih =>
    rw [anyHasCall, Bool.or_eq_true]
    rcases List.mem_cons.1 hn with rfl | hn
    · exact .inl hcall
    · exact .inr (ih hn)

/-- The keys under which a statement can bind values. -/
def written (n : Node) : List Key :=
  n.targets.filterMap Key.ofLabel?

/-- The keys under which statements in a row can bind values. -/
def writtenByAll (body : List Node) : List Key :=
  (targetsOfAll body).filterMap Key.ofLabel?

theorem writtenByAll_cons (n : Node) (body : List Node) :
    writtenByAll (n :: body) = n.written ++ writtenByAll body := by
  rw [writtenByAll, targetsOfAll, List.filterMap_append]
  rfl

end Node

/-! ## Actions that leave a part of the machine as it is -/

section Keeps

variable {α β γ : Type} {view : Machine → γ}

/-- However the action ends, this part of the machine is as before. -/
def Keeps (view : Machine → γ) (x : Action α) : Prop :=
  ∀ m, view (x.on m).2 = view m

theorem keeps_pure (a : α) : Keeps view (pure a : Action α) :=
  fun _ => rfl

theorem keeps_throw (s : Stop) : Keeps view (throw s : Action α) :=
  fun _ => rfl

theorem keeps_lift (r : Except Fault α) : Keeps view (lift r) := by
  intro m
  cases r <;> rfl

theorem keeps_bind {x : Action α} {f : α → Action β} (hx : Keeps view x)
    (hf : ∀ a, Keeps view (f a)) : Keeps view (x >>= f) := by
  intro m
  have hstep := hx m
  rw [on_bind]
  rcases hon : x.on m with ⟨r, m'⟩
  rw [hon] at hstep
  cases r with
  | error s => exact hstep
  | ok a => exact (hf a m').trans hstep

/-- An action that only looks at the machine. -/
theorem keeps_look (F : Machine → Except Fault α) : Keeps view (do lift (F (← get))) :=
  keeps_bind (fun _ => rfl) fun _ => keeps_lift _

/-- A record changes the trace only. -/
theorem keeps_record (hview : ∀ m traced, view { m with traced } = view m) (level : Int)
    (event : Heap → Except Fault Event) : Keeps view (record level event) := by
  intro m
  rw [on_record]
  split
  · split
    · next e _ =>
      obtain ⟨traced, hnote⟩ := exists_note m e
      rw [hnote]
      exact hview m traced
    · rfl
  · rfl

theorem keeps_callee (name : Label) : Keeps view (callee name) :=
  keeps_bind (keeps_lift _) fun _ => keeps_bind (fun _ => rfl) fun _ => keeps_pure _

/-- The scope that does not matter to an action does not change either. -/
theorem keeps_scope_of_blind {x : Action α} (hx : Blind x) : Keeps Machine.scope x := by
  intro m
  have hsame := hx m m.scope
  rw [show ({ m with scope := m.scope } : Machine) = m from rfl] at hsame
  rw [hsame]

end Keeps

/-! ## Expressions -/

/-- The property holds of stops, of looking at the machine and of the record of an element that is
read, and of two actions in turn when it holds of both. Calls apart, evaluating does nothing
else. -/
structure Observing (P : {α : Type} → Action α → Prop) : Prop where
  pure : ∀ {α : Type} (a : α), P (pure a : Action α)
  throw : ∀ {α : Type} (s : Stop), P (throw s : Action α)
  bind : ∀ {α β : Type} {x : Action α} {f : α → Action β}, P x → (∀ a, P (f a)) → P (x >>= f)
  look : ∀ {α : Type} (F : Machine → Except Fault α), P (do lift (F (← get)))
  record : ∀ event, P (record 3 event)

namespace Observing

variable {P : {α : Type} → Action α → Prop}

theorem lift (H : Observing P) {α : Type} (r : Except Fault α) : P (Action.lift r) := by
  cases r with
  | ok a => exact H.pure a
  | error f => exact H.throw (.fault f)

theorem collect (H : Observing P) {α β : Type} {f : α → Action β} {items : List α}
    (hf : ∀ a ∈ items, P (f a)) : P (MiniAlgol.collect f items) := by
  induction items with
  | nil => exact H.pure []
  | cons a items ih =>
    rw [List.forall_mem_cons] at hf
    exact H.bind hf.1 fun _ => H.bind (ih hf.2) fun _ => H.pure _

theorem requireBool (H : Observing P) (construct : String) (v : Value) :
    P (MiniAlgol.requireBool construct v) := by
  unfold MiniAlgol.requireBool
  split
  · exact H.pure _
  · exact H.bind (H.look fun m => Value.plainText m.heap _) fun _ =>
      H.bind (H.look fun m => Value.typeName m.heap _) fun _ => H.throw _

theorem checkInitial (H : Observing P) (tag : Tag) (name : Label) (v : Value) :
    P (MiniAlgol.checkInitial tag name v) := by
  unfold MiniAlgol.checkInitial
  split
  · exact H.pure _
  · exact H.bind (H.look fun m => v.typeName m.heap) fun _ =>
      H.bind (H.look fun m => v.plainText m.heap) fun _ => H.throw _

/-- Evaluating an expression has the property if calls have it; without a call in the expression it
has it anyway. -/
theorem evaluate (H : Observing P) (fuel : Nat) (n : Node)
    (hcalls : n.hasCall → ∀ fuel name args, P (invoke fuel name args)) :
    P (MiniAlgol.evaluate fuel n) := by
  induction fuel generalizing n with
  | zero => exact H.throw _
  | succ fuel ih =>
    cases n with
    | literal text kind => exact H.lift _
    | ident name => exact H.look fun m => m.scope.get name
    | binary cls op left right =>
      have hleft : P (MiniAlgol.evaluate fuel left) :=
        ih left fun hcall => hcalls (by simp [Node.hasCall, hcall])
      have hright : P (MiniAlgol.evaluate fuel right) :=
        ih right fun hcall => hcalls (by simp [Node.hasCall, hcall])
      simp only [MiniAlgol.evaluate]
      exact H.bind hleft fun a => H.bind hright fun b => H.look fun m => a.apply m.heap op b
    | arrayAccess name indices =>
      have hindices : ∀ i ∈ indices, P (MiniAlgol.evaluate fuel i) := fun i hi =>
        ih i fun hcall => hcalls (Node.hasCall_of_mem hi hcall)
      rw [evaluate_arrayAccess]
      exact H.bind (H.look fun m => m.scope.get name) fun target =>
        H.bind (H.collect hindices) fun is =>
          H.bind (H.look fun m => Heap.read m.heap name target is) fun _ =>
            H.bind (H.record _) fun _ => H.pure _
    | call name args =>
      have hinvoke := hcalls rfl
      simp only [MiniAlgol.evaluate]
      -- the arguments may have calls of their own
      exact H.bind (H.collect fun arg _ => ih arg fun _ => hinvoke) fun _ => hinvoke fuel name _
    | _ =>
      simp only [MiniAlgol.evaluate]
      exact H.throw _

end Observing

theorem observing_keeps {γ : Type} {view : Machine → γ}
    (hview : ∀ m traced, view { m with traced } = view m) : Observing (Keeps view) where
  pure := keeps_pure
  throw := keeps_throw
  bind := keeps_bind
  look := keeps_look
  record := keeps_record hview 3

/-- Evaluating an expression keeps what a call keeps and a record does not touch; without a call in
it, whatever a record does not touch. -/
theorem keeps_evaluate {γ : Type} {view : Machine → γ}
    (hview : ∀ m traced, view { m with traced } = view m) (fuel : Nat) (n : Node)
    (hcalls : n.hasCall → ∀ fuel name args, Keeps view (invoke fuel name args)) :
    Keeps view (evaluate fuel n) :=
  (observing_keeps hview).evaluate fuel n hcalls

/-- A call keeps the scope around it. -/
theorem keeps_scope_invoke (fuel : Nat) (name : Label) (args : List Value) :
    Keeps Machine.scope (invoke fuel name args) := by
  cases fuel with
  | zero => exact keeps_throw _
  | succ fuel =>
    rw [invoke_succ]
    exact keeps_bind (keeps_callee name) fun v =>
      keeps_scope_of_blind (blind_callValue fuel name args v)

theorem keeps_scope_evaluate (fuel : Nat) (n : Node) : Keeps Machine.scope (evaluate fuel n) :=
  keeps_evaluate (fun _ _ => rfl) fuel n fun _ => keeps_scope_invoke

/-! ## Statements -/

/-- Nothing was unbound, and only names with these keys were bound. -/
structure Scope.Rewritten (keys : List Key) (s s' : Scope) : Prop where
  other : ∀ key, key ∉ keys → s'.get? key = s.get? key
  bound : ∀ key, (s.get? key).isSome → (s'.get? key).isSome

namespace Scope.Rewritten

variable {keys keys' : List Key} {s s' s'' : Scope}

theorem refl (keys : List Key) (s : Scope) : Rewritten keys s s :=
  ⟨fun _ _ => rfl, fun _ h => h⟩

theorem trans (h : Rewritten keys s s') (h' : Rewritten keys s' s'') : Rewritten keys s s'' :=
  ⟨fun key hkey => (h'.other key hkey).trans (h.other key hkey),
    fun key hbound => h'.bound key (h.bound key hbound)⟩

theorem mono (h : Rewritten keys s s') (hkeys : keys ⊆ keys') : Rewritten keys' s s' :=
  ⟨fun key hkey => h.other key fun hmem => hkey (hkeys hmem), h.bound⟩

theorem set (s : Scope) {name : Name} (hname : name.key ∈ keys) (v : Value) :
    Rewritten keys s (s.set name v) := by
  refine ⟨fun key hkey => ?_, fun key hbound => ?_⟩
  · rw [get?_set, if_neg]
    rintro rfl
    exact hkey hname
  · rw [get?_set]
    split
    · rfl
    · exact hbound

end Scope.Rewritten

section Writes

variable {α β : Type} {keys keys' : List Key}

/-- However the action ends, it has bound names with these keys only. -/
def Writes (keys : List Key) (x : Action α) : Prop :=
  ∀ m : Machine, m.scope.Rewritten keys (x.on m).2.scope

theorem Writes.mono {x : Action α} (hx : Writes keys x) (hkeys : keys ⊆ keys') : Writes keys' x :=
  fun m => (hx m).mono hkeys

theorem writes_of_keeps {x : Action α} (hx : Keeps Machine.scope x) : Writes keys x := by
  intro m
  rw [hx m]
  exact .refl keys m.scope

theorem writes_pure (a : α) : Writes keys (pure a : Action α) :=
  writes_of_keeps (keeps_pure a)

theorem writes_throw (s : Stop) : Writes keys (throw s : Action α) :=
  writes_of_keeps (keeps_throw s)

theorem writes_bind {x : Action α} {f : α → Action β} (hx : Writes keys x)
    (hf : ∀ a, Writes keys (f a)) : Writes keys (x >>= f) := by
  intro m
  have hstep := hx m
  rw [on_bind]
  rcases hon : x.on m with ⟨r, m'⟩
  rw [hon] at hstep
  cases r with
  | error s => exact hstep
  | ok a => exact hstep.trans (hf a m')

theorem writes_record (level : Int) (event : Heap → Except Fault Event) :
    Writes keys (record level event) :=
  writes_of_keeps (keeps_record (fun _ _ => rfl) level event)

theorem writes_evaluate (fuel : Nat) (n : Node) : Writes keys (evaluate fuel n) :=
  writes_of_keeps (keeps_scope_evaluate fuel n)

theorem writes_requireBool (construct : String) (v : Value) :
    Writes keys (requireBool construct v) :=
  writes_of_keeps ((observing_keeps fun _ _ => rfl).requireBool construct v)

/-- Binding a label writes its key; a label without a key is refused. -/
theorem writes_bindName {label : Label} (hlabel : ∀ key ∈ Key.ofLabel? label, key ∈ keys)
    (v : Value) : Writes keys (Action.bind label v) := by
  intro m
  rw [Action.bind, on_bind]
  cases hname : Name.ofLabel label with
  | error f => exact .refl keys m.scope
  | ok name => exact .set m.scope (hlabel name.key (Name.key_of_ofLabel hname)) v

theorem writes_initialValue (fuel : Nat) (tag : Tag) (name : Label) (init : Node) :
    Writes keys (initialValue fuel tag name init) := by
  unfold initialValue
  split
  · exact writes_pure _
  · exact writes_bind (writes_evaluate fuel init) fun v =>
      writes_bind (writes_of_keeps ((observing_keeps fun _ _ => rfl).checkInitial tag name v))
        fun _ => writes_pure _

theorem keeps_scope_changeHeap (f : Heap → Except Fault Heap) :
    Keeps Machine.scope (changeHeap f) :=
  keeps_bind (fun _ => rfl) fun _ => keeps_bind (keeps_lift _) fun _ _ => rfl

theorem keeps_scope_fillFrom (fuel : Nat) (name : Label) (address index : Nat)
    (elements : List Node) : Keeps Machine.scope (fillFrom fuel name address index elements) := by
  induction fuel generalizing index elements with
  | zero =>
    cases elements with
    | nil => exact keeps_pure ()
    | cons element rest => exact keeps_throw _
  | succ fuel ih =>
    cases elements with
    | nil => exact keeps_pure ()
    | cons element rest =>
      simp only [fillFrom]
      exact keeps_bind (keeps_scope_evaluate fuel element) fun _ =>
        keeps_bind (keeps_scope_changeHeap _) fun _ => ih (index + 1) rest

theorem writes_initialElements (fuel : Nat) (name : Label) (address : Nat)
    (init : Option (List Node)) : Writes keys (initialElements fuel name address init) := by
  refine writes_of_keeps ?_
  cases init with
  | none => exact keeps_pure ()
  | some elements =>
    refine keeps_bind ?_ fun _ => keeps_scope_fillFrom fuel name address 0 elements
    exact keeps_bind (fun _ => rfl) fun _ => keeps_bind (keeps_lift _) fun _ => keeps_lift _

end Writes

/-! ## Runs -/

/-- Everything that runs statements with this fuel writes their targets only. -/
structure WritesTargets (fuel : Nat) : Prop where
  execute : ∀ n, Writes n.written (execute fuel n)
  executeAll : ∀ body, Writes (Node.writtenByAll body) (executeAll fuel body)
  repeatWhile : ∀ condition body, Writes body.written (repeatWhile fuel condition body)

theorem execute_writes {fuel : Nat} (ih : WritesTargets fuel) (n : Node) :
    Writes n.written (execute (fuel + 1) n) := by
  cases n with
  | varDecl tag name init =>
    rw [execute_varDecl]
    refine writes_bind (writes_initialValue fuel tag name init) fun v => ?_
    refine writes_bind (writes_bindName (fun key hkey => ?_) v) fun _ =>
      writes_bind (writes_record _ _) fun _ => writes_pure _
    simpa [Node.written, Node.targets] using hkey
  | arrayDecl name elem extents init =>
    rw [execute_arrayDecl]
    have hallocate : Keeps Machine.scope (allocateArray elem extents) :=
      keeps_bind (keeps_lift _) fun _ _ => rfl
    refine writes_bind (writes_of_keeps hallocate) fun address => ?_
    refine writes_bind (writes_bindName (fun key hkey => ?_) _) fun _ =>
      writes_bind (writes_initialElements fuel name address init) fun _ =>
        writes_bind (writes_record _ _) fun _ => writes_pure _
    simpa [Node.written, Node.targets] using hkey
  | assign name value =>
    simp only [execute]
    refine writes_bind (writes_evaluate fuel value) fun v => ?_
    refine writes_bind (writes_bindName (fun key hkey => ?_) v) fun _ =>
      writes_bind (writes_record _ _) fun _ => writes_pure _
    simpa [Node.written, Node.targets] using hkey
  | indexAssign name indices value =>
    simp only [execute]
    refine writes_bind (writes_of_keeps (keeps_look fun m => m.scope.get name)) fun _ => ?_
    have hindices : Keeps Machine.scope (collect (evaluate fuel) indices) :=
      (observing_keeps fun _ _ => rfl).collect fun i _ => keeps_scope_evaluate fuel i
    exact writes_bind (writes_of_keeps hindices) fun _ =>
      writes_bind (writes_evaluate fuel value) fun _ =>
        writes_bind (writes_of_keeps (keeps_scope_changeHeap _)) fun _ =>
          writes_bind (writes_record _ _) fun _ => writes_pure _
  | block body =>
    simp only [execute]
    exact writes_bind (ih.executeAll body) fun _ => writes_pure _
  | ifStmt condition thenBranch elseBranch =>
    have hwritten : (Node.ifStmt condition thenBranch elseBranch).written
        = thenBranch.written ++ elseBranch.written := by
      simp [Node.written, Node.targets]
    simp only [execute, hwritten]
    refine writes_bind (writes_evaluate fuel condition) fun _ =>
      writes_bind (writes_requireBool _ _) fun _ => writes_bind (writes_record _ _) fun _ => ?_
    split
    · have hthen := (ih.execute thenBranch).mono (List.subset_append_left _ elseBranch.written)
      exact writes_bind hthen fun _ => writes_pure _
    · split
      · exact writes_pure _
      · have helse := (ih.execute elseBranch).mono (List.subset_append_right thenBranch.written _)
        exact writes_bind helse fun _ => writes_pure _
  | whileStmt condition body =>
    simp only [execute]
    refine writes_bind (writes_evaluate fuel condition) fun _ =>
      writes_bind (writes_requireBool _ _) fun _ => ?_
    split
    · exact writes_bind (ih.repeatWhile condition body) fun _ => writes_pure _
    · exact writes_pure _
  | routineDecl kind name params body =>
    -- the body is not run here, so its targets are none of the statement
    rw [execute_routineDecl]
    refine writes_bind (writes_bind (writes_of_keeps fun _ => rfl) fun _ =>
      writes_bindName (fun key hkey => ?_) _) fun _ =>
        writes_bind (writes_record _ _) fun _ => writes_pure _
    simpa [Node.written, Node.targets] using hkey
  | returnStmt value =>
    simp only [execute]
    refine writes_bind (writes_evaluate fuel value) fun v => ?_
    refine writes_bind (writes_bindName (fun key hkey => ?_) v) fun _ => writes_pure _
    simpa [Node.written, Node.targets] using hkey
  | exprStmt value =>
    simp only [execute]
    exact writes_bind (writes_evaluate fuel value) fun _ => writes_pure _
  | _ =>
    simp only [execute]
    exact writes_throw _

theorem executeAll_writes {fuel : Nat} (ih : WritesTargets fuel) (body : List Node) :
    Writes (Node.writtenByAll body) (executeAll (fuel + 1) body) := by
  simp only [executeAll]
  induction body with
  | nil => exact writes_pure ()
  | cons n body ihBody =>
    rw [Node.writtenByAll_cons]
    have hfirst := (ih.execute n).mono (List.subset_append_left _ (Node.writtenByAll body))
    have hrest := ihBody.mono (List.subset_append_right n.written _)
    exact writes_bind (writes_bind hfirst fun _ => writes_pure _) fun _ => hrest

theorem repeatWhile_writes {fuel : Nat} (ih : WritesTargets fuel) (condition body : Node) :
    Writes body.written (repeatWhile (fuel + 1) condition body) := by
  simp only [repeatWhile]
  refine writes_bind (ih.execute body) fun _ => ?_
  refine writes_bind (writes_evaluate fuel condition) fun _ =>
    writes_bind (writes_record _ _) fun _ => writes_bind (writes_requireBool _ _) fun _ => ?_
  split
  · exact ih.repeatWhile condition body
  · exact writes_pure _

/-- Runs write the targets of what they run. -/
theorem writesTargets : ∀ fuel, WritesTargets fuel
  | 0 => ⟨fun _ => writes_throw _, fun _ => writes_throw _, fun _ _ => writes_throw _⟩
  | fuel + 1 =>
    have ih := writesTargets fuel
    ⟨execute_writes ih, executeAll_writes ih, repeatWhile_writes ih⟩

/-- What an expression without a call leaves alone. -/
theorem keeps_evaluate_of_hasCall {n : Node} (hn : n.hasCall = false) (fuel : Nat) :
    Keeps (fun m => (m.heap, m.printed)) (evaluate fuel n) :=
  keeps_evaluate (fun _ _ => rfl) fuel n fun hcall => by
    rw [hn] at hcall
    cases hcall

/-- However a statement ends, only names among its targets can have another value than before, and
no name is unbound; evaluating an expression leaves the whole scope as it is, and without a call in
it also the heap and what was printed. -/
theorem runs_write_targets (fuel : Nat) (m : Machine) :
    (∀ n key, key ∉ n.written →
      ((execute fuel n).on m).2.scope.get? key = m.scope.get? key) ∧
    (∀ n key, (m.scope.get? key).isSome →
      (((execute fuel n).on m).2.scope.get? key).isSome) ∧
    (∀ n, ((evaluate fuel n).on m).2.scope = m.scope) ∧
    ∀ n, n.hasCall = false →
      ((evaluate fuel n).on m).2.heap = m.heap ∧
        ((evaluate fuel n).on m).2.printed = m.printed := by
  have hruns : WritesTargets fuel := writesTargets fuel
  refine ⟨fun n => (hruns.execute n m).other, fun n => (hruns.execute n m).bound,
    fun n => keeps_scope_evaluate fuel n m, fun n hn => ?_⟩
  exact Prod.mk.inj (keeps_evaluate_of_hasCall hn fuel m)

end MiniAlgol
