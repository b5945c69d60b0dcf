import MiniAlgol.Proofs.Run.Invariant
import MiniAlgol.Proofs.Run.Visits

/-!
# Invariants on the way

A run that keeps an invariant has it on its way too: a task that fits an invariant (`Task.Fits`)
starts tasks that fit it, on the machines that it has come to by then (`Task.Fits.comes`), and
leaves a machine with the invariant however it ends (`Task.Fits.leaves`). The heap of a run changes
only when an array is made and when an element is stored, and after either a task is started or the
task is at its end; so `Task.Fits.visits` speaks of every heap that there is during a run.
-/

namespace MiniAlgol

open MiniAlgol.Action Simulation

/-! ## Between the tasks -/

namespace Simulation

variable {S : Simulation} {w : S.World} {f g : Nat}

theorem locateTarget_agrees (L : S.Lawful) (ih : S.AgreesAt f g) {n : Node} {name : Label}
    {indices : List Node} (hn : S.expression n ∨ S.statement n) (hname : n.label? = some name)
    (hindices : ∀ e ∈ indices, S.expression e) :
    S.Agrees w (locateTarget f name indices) (locateTarget g name indices) any := by
  refine Agrees.bind (L.lookUp hn hname) fun _ _ _ _ _ => ?_
  refine Agrees.bind (Agrees.collect indices fun e he => ih.evaluate (hindices e he))
    fun _ _ _ _ _ => ?_
  exact Agrees.pure fun _ _ => trivial

theorem testIf_agrees (L : S.Lawful) (ih : S.AgreesAt f g) {condition : Node}
    (hcondition : S.expression condition) :
    S.Agrees w (testIf f condition) (testIf g condition) any := by
  refine Agrees.bind (ih.evaluate hcondition) fun _ v v' _ hv => ?_
  refine Agrees.bind (L.requireBool hv) ?_
  rintro _ b _ _ ⟨rfl, rfl, rfl⟩
  rw [plainText_bool]
  refine Agrees.bind (L.record (.ifCondition _)) fun _ _ _ _ _ => ?_
  exact Agrees.pure fun _ _ => trivial

theorem declareArray_agrees (L : S.Lawful) {name : Label} {elem : Tag} {extents : List Int}
    {elements : List Node} (hn : S.statement (.arrayDecl name elem extents (some elements))) :
    S.Agrees w (declareArray name elem extents elements.length)
      (declareArray name elem extents elements.length)
      (fun w a a' => S.value w (.array a) (.array a') ∧ S.room w a a' elements.length) := by
  refine Agrees.bind (L.allocateArray hn) fun w₁ a a' hw₁ ha => ?_
  refine Agrees.bind (L.bind hn rfl ha) fun w₂ _ _ hw₂ _ => ?_
  refine Agrees.bind (L.checkRoom (S.value_later hw₂ ha)) fun w₃ _ _ hw₃ hroom => ?_
  exact Agrees.pure fun w₄ hw₄ =>
    ⟨S.value_later (S.later_trans hw₂ (S.later_trans hw₃ hw₄)) ha, S.room_later hw₄ hroom⟩

/-- An element is evaluated and stored. -/
theorem storeElement_agrees (L : S.Lawful) (ih : S.AgreesAt f g) {name : Label} {a a' index : Nat}
    {count : Int} {e : Node} (ha : S.value w (.array a) (.array a')) (hroom : S.room w a a' count)
    (hlt : (index : Int) < count) (he : S.expression e) :
    S.Agrees w
      (do
        let v ← evaluate f e
        changeHeap fun heap => Heap.fill heap name a index v)
      (do
        let v ← evaluate g e
        changeHeap fun heap => Heap.fill heap name a' index v) any := by
  refine Agrees.bind (ih.evaluate he) fun _ _ _ hw hv => ?_
  exact L.fill (S.value_later hw ha) (S.room_later hw hroom) hlt hv

end Simulation

/-! ## Tasks -/

namespace Task

/-- The machine that a task leaves, however it ends. -/
def leaves : Task → Machine → Machine
  | evaluate f n, m => ((MiniAlgol.evaluate f n).on m).2
  | execute f n, m => ((MiniAlgol.execute f n).on m).2
  | executeAll f body, m => ((MiniAlgol.executeAll f body).on m).2
  | repeatWhile f condition body, m => ((MiniAlgol.repeatWhile f condition body).on m).2
  | fillFrom f name address index elements, m =>
    ((MiniAlgol.fillFrom f name address index elements).on m).2
  | invoke f name args, m => ((MiniAlgol.invoke f name args).on m).2
  | opened f r args start, m => ((finishCall r args start (MiniAlgol.executeAll f r.body)).on m).2

/-- The task may run on the machine. -/
inductive Fits (I : Invariant) : Task → Machine → Prop where
  | evaluate {f n m} (hm : I.Holds m) (hn : I.expression n) : Fits I (.evaluate f n) m
  | execute {f n m} (hm : I.Holds m) (hn : I.statement n) : Fits I (.execute f n) m
  | executeAll {f body m} (hm : I.Holds m) (hbody : ∀ n ∈ body, I.statement n) :
    Fits I (.executeAll f body) m
  | repeatWhile {f condition body m} (hm : I.Holds m) (hcondition : I.expression condition)
      (hbody : I.statement body) : Fits I (.repeatWhile f condition body) m
  | fillFrom {f name address elements count m} {index : Nat} (hm : I.Holds m)
      (haddress : I.address m.heap address)
      (hroom : I.simulation.room m.heap address address count)
      (hcount : (index + elements.length : Int) ≤ count)
      (helements : ∀ e ∈ elements, I.expression e) :
      Fits I (.fillFrom f name address index elements) m
  | invoke {f name args nodes m} (hm : I.Holds m) (hn : I.expression (.call name nodes))
      (hargs : ∀ v ∈ args, I.value m.heap v) : Fits I (.invoke f name args) m
  | opened {f r args start m} (hm : I.Holds m) (hr : I.routine r)
      (hargs : ∀ v ∈ args, I.value m.heap v)
      (hstart : Scope.Related (I.both m.heap) start start) : Fits I (.opened f r args start) m

namespace Fits

variable {I : Invariant} {t t' : Task} {m m' : Machine} {f : Nat} {n : Node}

theorem holds (h : Fits I t m) : I.Holds m := by
  cases h <;> assumption

/-- However a task ends, the machine that it leaves has the invariant. -/
theorem leaves (Q : I.simulation.Primitive) (h : Fits I t m) : I.Holds (t.leaves m) := by
  have hruns : ∀ f, I.simulation.AgreesAt f f := fun f => Q.lawful.agrees (.inl rfl)
  cases h with
  | @evaluate f n m hm hn => exact Invariant.holds_of_agrees ((hruns f).evaluate hn) hm
  | @execute f n m hm hn => exact Invariant.holds_of_agrees ((hruns f).execute hn) hm
  | @executeAll f body m hm hbody =>
    exact Invariant.holds_of_agrees ((hruns f).executeAll hbody) hm
  | @repeatWhile f condition body m hm hcondition hbody =>
    exact Invariant.holds_of_agrees ((hruns f).repeatWhile hcondition hbody) hm
  | @fillFrom f name address elements count m index hm haddress hroom hcount helements =>
    exact Invariant.holds_of_agrees
      ((hruns f).fillFrom ⟨rfl, haddress⟩ hroom hcount helements) hm
  | @invoke f name args nodes m hm hn hargs =>
    have hvalues : I.simulation.values m.heap args args := Invariant.values_iff.2 ⟨rfl, hargs⟩
    exact Invariant.holds_of_agrees ((hruns f).invoke hn hvalues) hm
  | @opened f r args start m hm hr hargs hstart =>
    have hvalues : I.simulation.values m.heap args args := Invariant.values_iff.2 ⟨rfl, hargs⟩
    have hscope : I.simulation.scope m.heap start start := ⟨rfl, hstart⟩
    exact Invariant.holds_of_agrees
      (Q.finishCall hvalues hscope ((hruns f).executeAll (Q.routine_body hr))) hm

/-! ### What a task starts -/

section Comes

variable (L : I.simulation.Lawful)

include L

theorem comes_of_evaluate (hm : I.Holds m) (hn : I.expression n)
    (h : (Task.evaluate f n).Comes m t' m') : Fits I t' m' := by
  have hruns : ∀ f, I.simulation.AgreesAt f f := fun f => L.agrees (.inl rfl)
  have hparts : ∀ e ∈ n.expressions, I.expression e := L.expression_parts hn
  cases h with
  | @left f cls op x y => exact .evaluate hm (hparts x List.mem_cons_self)
  | @right f cls op x y m m' v h =>
    have hm' := (Invariant.after hm ((hruns f).evaluate (hparts x List.mem_cons_self)) h).1
    exact .evaluate hm' (hparts y (List.mem_cons_of_mem _ List.mem_cons_self))
  | @index f name before e after m m' found h =>
    have hm' := (Invariant.after hm (locateTarget_agrees L (hruns f) (.inl hn) rfl fun c hc =>
      hparts c (List.mem_append_left _ hc)) h).1
    exact .evaluate hm' (hparts e (List.mem_append_right _ List.mem_cons_self))
  | @argument f name before e after m m' vs h =>
    have hm' := (Invariant.after hm (Agrees.collect before fun c hc =>
      (hruns f).evaluate (hparts c (List.mem_append_left _ hc))) h).1
    exact .evaluate hm' (hparts e (List.mem_append_right _ List.mem_cons_self))
  | @invocation f name args m m' vs h =>
    obtain ⟨hm', ⟨hvs, -⟩, -⟩ := Invariant.after hm
      (Agrees.collect args fun c hc => (hruns f).evaluate (hparts c hc)) h
    exact .invoke hm' hn (Invariant.values_iff.1 hvs).2

theorem comes_of_execute (hm : I.Holds m) (hn : I.statement n)
    (h : (Task.execute f n).Comes m t' m') : Fits I t' m' := by
  have hruns : ∀ f, I.simulation.AgreesAt f f := fun f => L.agrees (.inl rfl)
  have hexprs : ∀ e ∈ n.expressions, I.expression e := L.statement_expressions hn
  have hstmts : ∀ s ∈ n.statements, I.statement s := L.statement_parts hn
  cases h with
  | @initial f tag name init m hinit =>
    refine .evaluate hm (hexprs init ?_)
    simp [Node.expressions, hinit]
  | assigned | ifCondition | whileCondition | returned | expression =>
    exact .evaluate hm (hexprs _ List.mem_cons_self)
  | @elements f name elem extents elements m m' address h =>
    obtain ⟨hm', ⟨haddress, hroom⟩, -⟩ := Invariant.after hm (declareArray_agrees L hn) h
    exact .fillFrom hm' haddress.2 hroom (by simp) hexprs
  | @targetIndex f name before e after value m m' found h =>
    have hm' := (Invariant.after hm (locateTarget_agrees L (hruns f) (.inr hn) rfl fun c hc =>
      hexprs c (List.mem_cons_of_mem _ (List.mem_append_left _ hc))) h).1
    exact .evaluate hm'
      (hexprs e (List.mem_cons_of_mem _ (List.mem_append_right _ List.mem_cons_self)))
  | @stored f name indices value m m' found h =>
    have hm' := (Invariant.after hm (locateTarget_agrees L (hruns f) (.inr hn) rfl fun c hc =>
      hexprs c (List.mem_cons_of_mem _ hc)) h).1
    exact .evaluate hm' (hexprs value List.mem_cons_self)
  | block => exact .executeAll hm hstmts
  | @thenBranch f condition x y m m' h =>
    have hm' := (Invariant.after hm
      (testIf_agrees L (hruns f) (hexprs condition List.mem_cons_self)) h).1
    refine .execute hm' (hstmts x ?_)
    simp only [Node.statements]
    split <;> exact List.mem_cons_self
  | @elseBranch f condition x y m m' hy h =>
    have hm' := (Invariant.after hm
      (testIf_agrees L (hruns f) (hexprs condition List.mem_cons_self)) h).1
    refine .execute hm' (hstmts y ?_)
    simp [Node.statements, hy]
  | @passes f condition x m m' h =>
    have hcondition := hexprs condition List.mem_cons_self
    have htest : I.simulation.Agrees m.heap (do requireBool "while" (← MiniAlgol.evaluate f condition))
        (do requireBool "while" (← MiniAlgol.evaluate f condition)) any :=
      Agrees.bind ((hruns f).evaluate hcondition) fun _ _ _ _ hv =>
        (L.requireBool hv).imp fun _ _ _ _ => trivial
    exact .repeatWhile (Invariant.after hm htest h).1 hcondition (hstmts x List.mem_cons_self)

theorem comes_of_repeatWhile {condition x : Node} (hm : I.Holds m)
    (hcondition : I.expression condition) (hx : I.statement x)
    (h : (Task.repeatWhile f condition x).Comes m t' m') : Fits I t' m' := by
  have hruns : ∀ f, I.simulation.AgreesAt f f := fun f => L.agrees (.inl rfl)
  cases h with
  | pass => exact .execute hm hx
  | @passCondition f condition x m m' result h =>
    exact .evaluate (Invariant.after hm ((hruns f).execute hx) h).1 hcondition
  | @again f condition x m m' h =>
    have hpass : I.simulation.Agrees m.heap
        (do
          let _ ← MiniAlgol.execute f x
          passTest (← MiniAlgol.evaluate f condition))
        (do
          let _ ← MiniAlgol.execute f x
          passTest (← MiniAlgol.evaluate f condition)) any :=
      Agrees.bind ((hruns f).execute hx) fun _ _ _ _ _ =>
        Agrees.bind ((hruns f).evaluate hcondition) fun _ _ _ _ hv =>
          (L.passTest hv).imp fun _ _ _ _ => trivial
    exact .repeatWhile (Invariant.after hm hpass h).1 hcondition hx

theorem comes_of_fillFrom {name : Label} {address index : Nat} {count : Int} {elements : List Node}
    (hm : I.Holds m) (haddress : I.address m.heap address)
    (hroom : I.simulation.room m.heap address address count)
    (hcount : (index + elements.length : Int) ≤ count) (helements : ∀ e ∈ elements, I.expression e)
    (h : (Task.fillFrom f name address index elements).Comes m t' m') : Fits I t' m' := by
  have hruns : ∀ f, I.simulation.AgreesAt f f := fun f => L.agrees (.inl rfl)
  cases h with
  | element => exact .evaluate hm (helements _ List.mem_cons_self)
  | @laterElements f name address index e rest m m' h =>
    simp only [List.length_cons] at hcount
    obtain ⟨hm', -, hg⟩ := Invariant.after hm (storeElement_agrees L (hruns f) ⟨rfl, haddress⟩ hroom
      (by omega) (helements e List.mem_cons_self)) h
    exact .fillFrom hm' (I.address_grows hg haddress) (I.simulation.room_later hg hroom) (by omega)
      fun c hc => helements c (List.mem_cons_of_mem _ hc)

theorem comes_of_invoke {name : Label} {args : List Value} {nodes : List Node} (hm : I.Holds m)
    (hn : I.expression (.call name nodes)) (hargs : ∀ v ∈ args, I.value m.heap v)
    (h : (Task.invoke f name args).Comes m t' m') : Fits I t' m' := by
  cases h with
  | @call f name args m m' id r start hcallee hlen hstart =>
    obtain ⟨hm', hr, hg⟩ := Invariant.after hm (L.callee hn) hcallee
    have hargs' : ∀ v ∈ args, I.value m'.heap v := fun v hv => Invariant.value_grows hg (hargs v hv)
    have hvalues : List.Forall₂ (I.both m'.heap) args args :=
      List.forall₂_same.2 fun v hv => ⟨rfl, hargs' v hv⟩
    have hscope : Scope.Related (I.both m'.heap) start start := by
      obtain ⟨f, -, hfail, -⟩ | ⟨s, s', hs, hs', hrel⟩ :=
        Scope.ofArguments_related r.params hvalues
      · rw [hstart] at hfail
        cases hfail
      · rw [hstart] at hs hs'
        cases hs
        cases hs'
        exact hrel
    cases hr with
    | some hr => exact .opened ⟨hm'.heap, hm'.scope⟩ hr.2 hargs' hscope

end Comes

/-- What a task starts fits the invariant that the task fits. -/
theorem comes (L : I.simulation.Lawful) (ht : Fits I t m) (h : t.Comes m t' m') : Fits I t' m' := by
  have hruns : ∀ f, I.simulation.AgreesAt f f := fun f => L.agrees (.inl rfl)
  cases ht with
  | evaluate hm hn => exact comes_of_evaluate L hm hn h
  | execute hm hn => exact comes_of_execute L hm hn h
  | executeAll hm hbody =>
    cases h with
    | @statement f before n after m m' h =>
      have hbefore : I.simulation.Agrees m.heap
          (forEach (fun n => do let _ ← MiniAlgol.execute f n) before)
          (forEach (fun n => do let _ ← MiniAlgol.execute f n) before) any :=
        Agrees.forEach before fun s hs => Agrees.bind
          ((hruns f).execute (hbody s (List.mem_append_left _ hs))) fun _ _ _ _ _ =>
            Agrees.pure fun _ _ => trivial
      exact .execute (Invariant.after hm hbefore h).1
        (hbody n (List.mem_append_right _ List.mem_cons_self))
  | repeatWhile hm hcondition hbody => exact comes_of_repeatWhile L hm hcondition hbody h
  | fillFrom hm haddress hroom hcount helements =>
    exact comes_of_fillFrom L hm haddress hroom hcount helements h
  | invoke hm hn hargs => exact comes_of_invoke L hm hn hargs h
  | @opened f r args start m hm hr hargs hstart =>
    cases h with
    | enter h =>
      have hvalues : I.simulation.values m.heap args args := Invariant.values_iff.2 ⟨rfl, hargs⟩
      obtain ⟨hm', -, hg⟩ := Invariant.after hm (L.record (.call hvalues)) h
      refine .executeAll ⟨hm'.heap, hstart.imp fun _ _ hv => ?_⟩ (L.routine_body hr)
      exact ⟨hv.1, Invariant.value_grows hg hv.2⟩

/-- Whatever task a run comes to fits the invariant. -/
theorem visits (L : I.simulation.Lawful) (ht : Fits I t m) (h : t.Visits m t' m') :
    Fits I t' m' := by
  suffices hall : ∀ p, Relation.ReflTransGen
      (fun s s' : Task × Machine => Comes s.1 s.2 s'.1 s'.2) (t, m) p → Fits I p.1 p.2 from
    hall _ h
  intro p hp
  induction hp with
  | refl => exact ht
  | tail _ hcomes ih => exact ih.comes L hcomes

end Fits

end Task

end MiniAlgol
