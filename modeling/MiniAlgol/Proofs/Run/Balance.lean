import MiniAlgol.Proofs.Heap.Text
import MiniAlgol.Proofs.Run.Induction

/-!
# Open calls

A run closes every call that it opens, whether it gives a result, ends with a fault or runs out of
fuel, with one exception (`runs_balanced`). A call is open before it is recorded in the trace, and
its record lists the arguments; an integer among them that is too long to be written stops the run
there, and one call stays open. This needs a trace: without one nothing is listed.

`StaysOpen` says that this is how the action stops, and which routine it is whose call stays open.
It is the outermost of those that were opened: the record stops inside the bodies of the others,
and each body closes a call on its way out, the innermost one first.
-/

namespace MiniAlgol

open MiniAlgol.Action

/-- The stop at an integer that is too long to be written. -/
abbrev Stop.tooLong : Stop := .fault (.numeral .tooLongToWrite)

/-- The action comes to the record of a call whose arguments cannot be listed in this heap. Of the
calls that it opened and that are open there, the call of the routine is the outermost one. -/
inductive StaysOpen : {α : Type} → Action α → Machine → Routine → Heap → Prop where
  /-- The record of the call itself. -/
  | record {r : Routine} {args : List Value} {x : Action Unit} {m : Machine} {start : Scope}
      (hstart : Scope.ofArguments r.params args = .ok start) (hone : 1 ≤ m.level)
      (hlist : args.mapM (Value.listing m.heap) = .error (.numeral .tooLongToWrite)) :
      StaysOpen (activate r args x) m r m.heap
  /-- A record in the body of a call that was itself recorded. -/
  | body {r inner : Routine} {args : List Value} {x : Action Unit} {m m₁ : Machine} {start : Scope}
      {heap : Heap} (hstart : Scope.ofArguments r.params args = .ok start)
      (hcall : (recordCall r args).on { m with calls := r.name :: m.calls } = (.ok (), m₁))
      (h : StaysOpen x { m₁ with scope := start } inner heap) :
      StaysOpen (activate r args x) m r heap
  /-- A record in the first of two actions. -/
  | first {α β : Type} {x : Action α} {f : α → Action β} {m : Machine} {r : Routine} {heap : Heap}
      (h : StaysOpen x m r heap) : StaysOpen (x >>= f) m r heap
  /-- A record in the second one, after a first one that closed all its calls. -/
  | later {α β : Type} {x : Action α} {f : α → Action β} {m m' : Machine} {a : α} {r : Routine}
      {heap : Heap} (hx : x.on m = (.ok a, m')) (hcalls : m'.calls = m.calls)
      (h : StaysOpen (f a) m' r heap) : StaysOpen (x >>= f) m r heap
  | program {fuel : Nat} {program : Node} {m : Machine} {r : Routine} {heap : Heap}
      (h : StaysOpen (runBody fuel program) (startRun.on m).2 r heap) :
      StaysOpen (runProgram fuel program) m r heap

/-- An action left the level of the trace and the open calls as they were, or one more call open
when it stopped at a record that could not be written. -/
inductive LeavesCalls {α : Type} (x : Action α) (m : Machine) : Except Stop α × Machine → Prop where
  | closed {r : Except Stop α} {m' : Machine} (hlevel : m'.level = m.level)
      (hcalls : m'.calls = m.calls) : LeavesCalls x m (r, m')
  | open {r : Routine} {m' : Machine} (hstays : StaysOpen x m r m'.heap) (hone : 1 ≤ m.level)
      (hlevel : m'.level = m.level) (hcalls : m'.calls = r.name :: m.calls) :
      LeavesCalls x m (.error .tooLong, m')

/-- The action leaves the open calls as they were, but for the record of a call. -/
def Balanced {α : Type} (x : Action α) : Prop :=
  ∀ m, LeavesCalls x m (x.on m)

/-- The action leaves the level of the trace and the open calls as they were, however it ends. -/
def KeepsCalls {α : Type} (x : Action α) : Prop :=
  ∀ m, (x.on m).2.level = m.level ∧ (x.on m).2.calls = m.calls

section Rules

variable {α β : Type}

/-! ## Actions without a call -/

theorem KeepsCalls.balanced {x : Action α} (hx : KeepsCalls x) : Balanced x :=
  fun m => .closed (hx m).1 (hx m).2

theorem keepsCalls_bind {x : Action α} {f : α → Action β} (hx : KeepsCalls x)
    (hf : ∀ a, KeepsCalls (f a)) : KeepsCalls (x >>= f) := by
  intro m
  have hfirst := hx m
  rw [on_bind]
  generalize x.on m = r at hfirst ⊢
  obtain ⟨r, m'⟩ := r
  cases r with
  | error s => exact hfirst
  | ok a => exact ⟨(hf a m').1.trans hfirst.1, (hf a m').2.trans hfirst.2⟩

theorem keepsCalls_lift (r : Except Fault α) : KeepsCalls (lift r) :=
  fun m => by cases r <;> exact ⟨rfl, rfl⟩

theorem keepsCalls_modify {f : Machine → Machine}
    (hf : ∀ m, (f m).level = m.level ∧ (f m).calls = m.calls) : KeepsCalls (modify f) :=
  hf

theorem note_eq (m : Machine) (e : Event) :
    (m.note e).level = m.level ∧ (m.note e).calls = m.calls := by
  obtain ⟨traced, hnote⟩ := exists_note m e
  rw [hnote]
  exact ⟨rfl, rfl⟩

theorem keepsCalls_record (level : Int) (event : Heap → Except Fault Event) :
    KeepsCalls (record level event) := by
  intro m
  rw [on_record]
  split
  · split
    · exact note_eq m _
    · exact ⟨rfl, rfl⟩
  · exact ⟨rfl, rfl⟩

theorem keepsCalls_recordCall (r : Routine) (args : List Value) : KeepsCalls (recordCall r args) :=
  keepsCalls_record _ _

theorem elementary_keepsCalls : Elementary KeepsCalls where
  pure _ _ := ⟨rfl, rfl⟩
  fail _ _ := ⟨rfl, rfl⟩
  bind := keepsCalls_bind
  look _ := keepsCalls_bind (fun _ => ⟨rfl, rfl⟩) fun _ => keepsCalls_lift _
  bindName _ _ := keepsCalls_bind (keepsCalls_lift _) fun _ =>
    keepsCalls_modify fun _ => ⟨rfl, rfl⟩
  print _ := keepsCalls_modify fun _ => ⟨rfl, rfl⟩
  newId _ := ⟨rfl, rfl⟩
  allocate _ _ := ⟨rfl, rfl⟩
  changeHeap _ := keepsCalls_bind (fun _ => ⟨rfl, rfl⟩) fun _ =>
    keepsCalls_bind (keepsCalls_lift _) fun _ => keepsCalls_modify fun _ => ⟨rfl, rfl⟩
  record _ _ := keepsCalls_record _ _

theorem balanced_bind {x : Action α} {f : α → Action β} (hx : Balanced x)
    (hf : ∀ a, Balanced (f a)) : Balanced (x >>= f) := by
  intro m
  have hfirst := hx m
  rw [on_bind]
  generalize hon : x.on m = r at hfirst ⊢
  cases hfirst with
  | «open» hstays hone hlevel hcalls => exact .open (.first hstays) hone hlevel hcalls
  | @closed r m' hlevel hcalls =>
    cases r with
    | error s => exact .closed hlevel hcalls
    | ok a =>
      have hrest := hf a m'
      simp only
      generalize (f a).on m' = r' at hrest ⊢
      cases hrest with
      | closed hlevel' hcalls' => exact .closed (hlevel'.trans hlevel) (hcalls'.trans hcalls)
      | «open» hstays hone hlevel' hcalls' =>
        exact .open (.later hon hcalls hstays) (hlevel ▸ hone) (hlevel'.trans hlevel)
          (hcalls ▸ hcalls')

/-! ## Calls -/

/-- A call is recorded, or its arguments cannot be listed. -/
theorem on_recordCall (r : Routine) (args : List Value) (m : Machine) :
    (∃ m', (recordCall r args).on m = (.ok (), m')) ∨
      1 ≤ m.level ∧ args.mapM (Value.listing m.heap) = .error (.numeral .tooLongToWrite) ∧
        (recordCall r args).on m = (.error .tooLong, m) := by
  have hcall := on_record 1 (fun heap =>
    return .call r.kind r.name.shown (", ".intercalate (← args.mapM (Value.listing heap)))) m
  rw [← recordCall] at hcall
  split at hcall
  · next hone =>
    split at hcall
    · exact .inl ⟨_, hcall⟩
    · next f hevent =>
      rcases bind_error hevent with hlist | ⟨_, -, hpure⟩
      · obtain ⟨v, -, hv⟩ := exists_of_mapM_error hlist
        rw [Value.listing_error hv] at hcall hlist
        exact .inr ⟨hone, hlist, hcall⟩
      · cases hpure
  · exact .inl ⟨m, hcall⟩

/-- What is left of a call once its body has ended. -/
theorem keepsCalls_return (r : Routine) (v : Value) :
    KeepsCalls (do
      record 1 fun heap => return .return r.name.shown (← v.listing heap)
      return v) :=
  keepsCalls_bind (keepsCalls_record _ _) fun _ => elementary_keepsCalls.pure v

theorem on_activate {r : Routine} {args : List Value} {x : Action Unit} {m : Machine}
    {start : Scope} (hstart : Scope.ofArguments r.params args = .ok start) :
    (activate r args x).on m =
      (finishCall r args start x).on { m with calls := r.name :: m.calls } := by
  rw [activate, hstart, on_bind, on_lift_ok]
  rfl

theorem balanced_activate {r : Routine} {args : List Value} {x : Action Unit} (hx : Balanced x) :
    Balanced (activate r args x) := by
  intro m
  cases hstart : Scope.ofArguments r.params args with
  | error f =>
    rw [activate, hstart, on_bind, on_lift_error]
    exact .closed rfl rfl
  | ok start =>
    rw [on_activate hstart, finishCall, on_bind]
    rcases on_recordCall r args { m with calls := r.name :: m.calls } with
      ⟨m₁, hcall⟩ | ⟨hone, hlist, hcall⟩
    · obtain ⟨hlevel₁, hcalls₁⟩ :=
        keepsCalls_recordCall r args { m with calls := r.name :: m.calls }
      rw [hcall] at hlevel₁ hcalls₁
      have hbody := hx { m₁ with scope := start }
      rw [hcall]
      simp only
      rw [on_bind, on_inCall]
      generalize x.on { m₁ with scope := start } = ended at hbody ⊢
      cases hbody with
      | @closed ended m₂ hlevel hcalls =>
        have htail : m₂.calls.tail = m.calls := by rw [hcalls, hcalls₁]; rfl
        cases ended with
        | error s => exact .closed (hlevel.trans hlevel₁) htail
        | ok _ =>
          obtain ⟨hlevel₃, hcalls₃⟩ := keepsCalls_return r
            ((m₂.scope.get? (.word Scope.resultWord)).getD .undefined)
            { m₂ with scope := m₁.scope, calls := m₂.calls.tail }
          exact .closed (hlevel₃.trans (hlevel.trans hlevel₁)) (hcalls₃.trans htail)
      | @«open» inner m₂ hstays hone hlevel hcalls =>
        -- it is the inner call that is closed, and the own one stays open
        have htail : m₂.calls.tail = r.name :: m.calls := by rw [hcalls, hcalls₁]; rfl
        exact .open (.body hstart hcall hstays) (hlevel₁ ▸ hone) (hlevel.trans hlevel₁) htail
    · rw [hcall]
      exact .open (.record hstart hone hlist) hone rfl rfl

theorem inherited_balanced : Inherited Balanced where
  pure a := (elementary_keepsCalls.pure a).balanced
  fail f := (elementary_keepsCalls.fail f).balanced
  outOfFuel _ := .closed rfl rfl
  bind := balanced_bind
  look F := (elementary_keepsCalls.look F).balanced
  bindName label v := (elementary_keepsCalls.bindName label v).balanced
  print line := (elementary_keepsCalls.print line).balanced
  newId := elementary_keepsCalls.newId.balanced
  allocate a := (elementary_keepsCalls.allocate a).balanced
  changeHeap f := (elementary_keepsCalls.changeHeap f).balanced
  record _ _ := (keepsCalls_record _ _).balanced
  activate := balanced_activate

end Rules

/-! ## Runs -/

/-- A program leaves the calls as its statements do, and nothing is traced after it. -/
theorem leavesCalls_runProgram (fuel : Nat) (program : Node) (m : Machine) :
    LeavesCalls (runProgram fuel program) m ((runProgram fuel program).on m) ∧
      ((runProgram fuel program).on m).2.tracing = false := by
  refine ⟨?_, rfl⟩
  obtain ⟨traced, tracing, runs, hstart⟩ := exists_on_startRun m
  have hlevel₁ : (startRun.on m).2.level = m.level := by rw [hstart]
  have hcalls₁ : (startRun.on m).2.calls = m.calls := by rw [hstart]
  have hbody : Balanced (runBody fuel program) :=
    balanced_bind (keepsCalls_lift _).balanced (inherited_balanced.runs fuel).executeAll
  have hleaves := hbody (startRun.on m).2
  rw [on_runProgram_runBody]
  generalize (runBody fuel program).on (startRun.on m).2 = r at hleaves ⊢
  cases hleaves with
  | closed hlevel hcalls => exact .closed (hlevel.trans hlevel₁) (hcalls.trans hcalls₁)
  | «open» hstays hone hlevel hcalls =>
    exact .open (.program hstays) (hlevel₁ ▸ hone) (hlevel.trans hlevel₁) (hcalls₁ ▸ hcalls)

/-- However a program, a statement, an expression or a call ends, the open calls are those from
before, unless the record of a call in the trace could not be written: then it ends there, and one
call more is open. After a program nothing is traced. -/
theorem runs_balanced (fuel : Nat) (m : Machine) :
    (∀ program, LeavesCalls (runProgram fuel program) m ((runProgram fuel program).on m) ∧
      ((runProgram fuel program).on m).2.tracing = false) ∧
    (∀ n, LeavesCalls (execute fuel n) m ((execute fuel n).on m)) ∧
    (∀ n, LeavesCalls (evaluate fuel n) m ((evaluate fuel n).on m)) ∧
    ∀ name args, LeavesCalls (invoke fuel name args) m ((invoke fuel name args).on m) := by
  have hruns : RunsWith Balanced fuel := inherited_balanced.runs fuel
  exact ⟨fun program => leavesCalls_runProgram fuel program m, fun n => hruns.execute n m,
    fun n => hruns.evaluate n m, fun name args => hruns.invoke name args m⟩

/-- The exception: a call with arguments that are too long to be listed stays open. -/
theorem on_activate_tooLong {r : Routine} {args : List Value} {x : Action Unit} {m : Machine}
    {start : Scope} (hstart : Scope.ofArguments r.params args = .ok start) (hone : 1 ≤ m.level)
    (hlist : args.mapM (Value.listing m.heap) = .error (.numeral .tooLongToWrite)) :
    (activate r args x).on m = (.error .tooLong, { m with calls := r.name :: m.calls }) := by
  rw [on_activate hstart, finishCall, on_bind, recordCall, on_record]
  simp only
  rw [if_pos hone, hlist]
  rfl

/-- An action that comes to such a record stops there and leaves one call open. -/
theorem StaysOpen.stops {α : Type} {x : Action α} {m : Machine} {r : Routine} {heap : Heap}
    (h : StaysOpen x m r heap) :
    ∃ m', x.on m = (.error .tooLong, m') ∧ m'.heap = heap ∧ m'.calls = r.name :: m.calls := by
  induction h with
  | record hstart hone hlist => exact ⟨_, on_activate_tooLong hstart hone hlist, rfl, rfl⟩
  | @body r inner args x m m₁ start heap hstart hcall _ ih =>
    obtain ⟨m', hon, hheap, hcalls⟩ := ih
    have hcalls₁ := (keepsCalls_recordCall r args { m with calls := r.name :: m.calls }).2
    rw [hcall] at hcalls₁
    -- the body closes the call of `inner`, and not the own one
    refine ⟨{ m' with scope := m₁.scope, calls := m'.calls.tail }, ?_, hheap,
      (congrArg List.tail hcalls).trans hcalls₁⟩
    rw [on_activate hstart, finishCall, on_bind, hcall]
    simp only [on_bind, on_inCall, hon]
  | first _ ih =>
    obtain ⟨m', hon, hends⟩ := ih
    exact ⟨m', by rw [on_bind, hon], hends⟩
  | later hx hcalls _ ih =>
    obtain ⟨m', hon, hheap, hcalls'⟩ := ih
    exact ⟨m', by rw [on_bind, hx, ← hon], hheap, hcalls ▸ hcalls'⟩
  | @program fuel program m r heap _ ih =>
    obtain ⟨m', hon, hheap, hcalls⟩ := ih
    obtain ⟨traced, tracing, runs, hstart⟩ := exists_on_startRun m
    refine ⟨{ m' with tracing := false }, by rw [on_runProgram_runBody, hon], hheap, ?_⟩
    rwa [hstart] at hcalls

/-- A routine that takes an argument and does nothing. -/
def idleRoutine : Routine := ⟨"f", [.str "x"], [], "function"⟩

/-- A machine that traces calls and has the routine. -/
def callTracer : Machine where
  scope := Scope.builtins.set (Name.ofWord "f") (.routine 1 idleRoutine)
  level := 1

/-- The call of the routine with an integer that is too long to be written stays open. -/
theorem callTracer_left_open :
    ((invoke 1 "f" [.int Numeral.writeBound]).on callTracer).1 = .error .tooLong ∧
      ((invoke 1 "f" [.int Numeral.writeBound]).on callTracer).2.calls = [.str "f"] ∧
      callTracer.calls = [] := by
  have hlist : [Value.int Numeral.writeBound].mapM (Value.listing callTracer.heap)
      = .error (.numeral .tooLongToWrite) := by
    have hone : Value.listing callTracer.heap (.int Numeral.writeBound)
        = .error (.numeral .tooLongToWrite) := by
      simp [Value.listing, Value.listingWithin, integerText, Numeral.writeInteger]
    rw [List.mapM_cons, hone]
    rfl
  have hstays : StaysOpen (invoke 1 "f" [.int Numeral.writeBound]) callTracer idleRoutine
      callTracer.heap := by
    have hcallee : (callee "f").on callTracer = (.ok (some (.routine 1 idleRoutine)), callTracer) :=
      rfl
    rw [invoke_succ]
    exact .later hcallee rfl (.record rfl (by decide) hlist)
  obtain ⟨m', hon, -, hcalls⟩ := hstays.stops
  rw [hon]
  exact ⟨rfl, hcalls, rfl⟩

end MiniAlgol
