import MiniAlgol.Proofs.Run.Initializers

/-!
# What a failed statement leaves

A statement that stores one value stores it when nothing can fail any more, so without calls in its
expressions it either gives a result or leaves the machine as it was (`allOrNothing_execute`). The
records that would be made after the store ask for a level of the trace, below which the machine is
taken to be (`StillBelow`, `AllOrNothing`).

A declaration of an array is different: it puts the array into the heap and names it before it
looks at the initial elements. `StopsAfter` says why it goes no further, and with which values
stored: all those before the element that fails, which is one element (`StopsAfter.unique`,
`machine_after_failure`).
-/

namespace MiniAlgol

open MiniAlgol.Action

variable {α β : Type} {level : Int} {fuel : Nat} {m m' : Machine}

/-! ## Actions below a level of the trace -/

/-- Below this level the action leaves the machine as it is, however it ends. -/
def StillBelow (level : Int) (x : Action α) : Prop :=
  ∀ m : Machine, m.level < level → (x.on m).2 = m

theorem stillBelow_record {n : Int} (hn : level ≤ n) (event : Heap → Except Fault Event) :
    StillBelow level (record n event) := by
  intro m hlevel
  rw [on_record, if_neg (by omega)]

theorem stillBelow_bind {x : Action α} {f : α → Action β} (hx : StillBelow level x)
    (hf : ∀ a, StillBelow level (f a)) : StillBelow level (x >>= f) := by
  intro m hlevel
  have hstep := hx m hlevel
  rw [on_bind]
  generalize x.on m = e at hstep ⊢
  rcases e with ⟨r, m₁⟩
  cases hstep
  cases r with
  | error s => rfl
  | ok a => exact hf a m₁ hlevel

theorem observing_stillBelow (hlevel : level ≤ 3) : Observing (StillBelow level) where
  pure _ _ _ := rfl
  throw _ _ _ := rfl
  bind := stillBelow_bind
  look F m _ :=
    have hkeeps : Keeps id (do lift (F (← get))) := keeps_look F
    hkeeps m
  record := stillBelow_record hlevel

/-- Without a call in it an expression changes nothing at all. -/
theorem stillBelow_evaluate (hlevel : level ≤ 3) {n : Node} (hn : n.hasCall = false)
    (fuel : Nat) : StillBelow level (evaluate fuel n) :=
  (observing_stillBelow hlevel).evaluate fuel n fun hcall => by
    rw [hn] at hcall
    cases hcall

/-- Below this level the action gives a result. -/
def SureBelow (level : Int) (x : Action α) : Prop :=
  ∀ m : Machine, m.level < level → ∃ a m', x.on m = (.ok a, m')

theorem sureBelow_pure (a : α) : SureBelow level (pure a : Action α) :=
  fun m _ => ⟨a, m, rfl⟩

/-- A record is not made below its level, so that it cannot fail there. -/
theorem sureBelow_record {n : Int} (hn : level ≤ n) (event : Heap → Except Fault Event)
    (a : α) : SureBelow level (do record n event; return a) := by
  intro m hlevel
  refine ⟨a, m, ?_⟩
  rw [on_bind, on_record, if_neg (by omega)]
  rfl

/-- Below this level the action gives a result or leaves the machine as it is. -/
def AllOrNothing (level : Int) (x : Action α) : Prop :=
  ∀ (m m' : Machine) s, m.level < level → x.on m = (.error s, m') → m' = m

theorem StillBelow.allOrNothing {x : Action α} (hx : StillBelow level x) :
    AllOrNothing level x := by
  intro m m' s hlevel h
  have hstep := hx m hlevel
  rwa [h] at hstep

/-- What comes before the store changes nothing. -/
theorem StillBelow.bind_allOrNothing {x : Action α} {f : α → Action β} (hx : StillBelow level x)
    (hf : ∀ a, AllOrNothing level (f a)) : AllOrNothing level (x >>= f) := by
  intro m m' s hlevel h
  have hstep := hx m hlevel
  rw [on_bind] at h
  generalize x.on m = e at hstep h
  rcases e with ⟨r, m₁⟩
  cases hstep
  cases r with
  | error s =>
    cases h
    rfl
  | ok a => exact hf a m₁ m' s hlevel h

/-- What comes after the store does not fail. -/
theorem AllOrNothing.bind_sure {x : Action α} {f : α → Action β} (hx : AllOrNothing level x)
    (hkeeps : Keeps Machine.level x) (hf : ∀ a, SureBelow level (f a)) :
    AllOrNothing level (x >>= f) := by
  intro m m' s hlevel h
  have hstep := hkeeps m
  rw [on_bind] at h
  rcases hon : x.on m with ⟨r, m₁⟩
  rw [hon] at h hstep
  cases r with
  | error s' =>
    cases h
    exact hx m m' s hlevel hon
  | ok a =>
    obtain ⟨b, m₂, hsure⟩ := hf a m₁ (by simp only at hstep; omega)
    simp only [hsure] at h
    cases h

theorem allOrNothing_bindName (label : Label) (v : Value) :
    AllOrNothing level (Action.bind label v) := by
  intro m m' s _ h
  rw [Action.bind, on_bind] at h
  cases hname : Name.ofLabel label with
  | error f =>
    rw [hname] at h
    cases h
    rfl
  | ok name =>
    rw [hname] at h
    cases h

theorem allOrNothing_changeHeap (f : Heap → Except Fault Heap) :
    AllOrNothing level (changeHeap f) := by
  intro m m' s _ h
  simp only [changeHeap, on_bind, on_get] at h
  cases hheap : f m.heap with
  | error fault =>
    rw [hheap] at h
    cases h
    rfl
  | ok heap =>
    rw [hheap] at h
    cases h

theorem keeps_level_bindName (label : Label) (v : Value) :
    Keeps Machine.level (Action.bind label v) :=
  keeps_bind (keeps_lift _) fun _ _ => rfl

theorem keeps_level_changeHeap (f : Heap → Except Fault Heap) :
    Keeps Machine.level (changeHeap f) :=
  keeps_bind (fun _ => rfl) fun _ => keeps_bind (keeps_lift _) fun _ _ => rfl

/-! ## Statements that store one value -/

/-- Whether the statement stores one value: under a name, in an array, or as the result. -/
def Node.isStore : Node → Bool
  | varDecl .. | assign .. | indexAssign .. | returnStmt _ => true
  | _ => false

theorem stillBelow_initialValue (hlevel : level ≤ 3) {init : Node} {tag : Tag} {name : Label}
    (hinit : init.isMissing = false → init.hasCall = false) :
    StillBelow level (initialValue fuel tag name init) := by
  have hobserving : Observing (StillBelow level) := observing_stillBelow hlevel
  unfold initialValue
  cases hmissing : init.isMissing with
  | true => exact hobserving.pure _
  | false =>
    refine stillBelow_bind (stillBelow_evaluate hlevel (hinit hmissing) fuel) fun v => ?_
    exact stillBelow_bind (hobserving.checkInitial tag name v) fun _ => hobserving.pure v

/-- A statement that stores one value, without calls, gives a result or changes nothing. -/
theorem allOrNothing_execute {n : Node} (hn : n.isStore)
    (hcalls : ∀ e ∈ n.expressions, e.hasCall = false) (fuel : Nat) :
    AllOrNothing 2 (execute fuel n) := by
  have hobserving : Observing (StillBelow 2) := observing_stillBelow (by decide)
  have hevaluate : ∀ e ∈ n.expressions, ∀ fuel, StillBelow 2 (evaluate fuel e) :=
    fun e he fuel => stillBelow_evaluate (by decide) (hcalls e he) fuel
  cases fuel with
  | zero => exact (hobserving.throw _).allOrNothing
  | succ fuel =>
    cases n with
    -- the store is the last thing that these do, apart from a record above the level
    | varDecl tag name init =>
      have hinit : init.isMissing = false → init.hasCall = false := fun hmissing =>
        hcalls init (by simp [Node.expressions, hmissing])
      rw [execute_varDecl]
      refine (stillBelow_initialValue (by decide) hinit).bind_allOrNothing fun v => ?_
      exact (allOrNothing_bindName name v).bind_sure (keeps_level_bindName name v) fun _ =>
        sureBelow_record (le_refl 2) _ none
    | assign name value =>
      simp only [execute]
      refine (hevaluate value (by simp [Node.expressions]) fuel).bind_allOrNothing fun v => ?_
      exact (allOrNothing_bindName name v).bind_sure (keeps_level_bindName name v) fun _ =>
        sureBelow_record (le_refl 2) _ none
    | indexAssign name indices value =>
      have hindices : ∀ i ∈ indices, StillBelow 2 (evaluate fuel i) := fun i hi =>
        hevaluate i (by simp [Node.expressions, hi]) fuel
      simp only [execute]
      refine (hobserving.look fun m => m.scope.get name).bind_allOrNothing fun target => ?_
      refine (hobserving.collect hindices).bind_allOrNothing fun is => ?_
      refine (hevaluate value (by simp [Node.expressions]) fuel).bind_allOrNothing fun v => ?_
      exact (allOrNothing_changeHeap _).bind_sure (keeps_level_changeHeap _) fun _ =>
        sureBelow_record (by decide) _ none
    | returnStmt value =>
      simp only [execute]
      refine (hevaluate value (by simp [Node.expressions]) fuel).bind_allOrNothing fun v => ?_
      exact (allOrNothing_bindName _ v).bind_sure (keeps_level_bindName _ v) fun _ =>
        sureBelow_pure _
    | _ => cases hn

/-! ## Arrays with initial elements -/

/-- Why a declaration stops after it has made its array, and which values are stored by then. There
are more elements than there is room for, of which none is evaluated; or the elements before one
have values, and that one has none, or one that is not of the type. -/
inductive StopsAfter (m : Machine) (label : Label) (name : Name) (x : ArrayObject) :
    List Node → List Value → Fault → Prop where
  | noRoom {elements : List Node} {f : Fault} (hmany : x.capacity < elements.length)
      (hf : x.checkCapacity label elements.length = .error f) :
      StopsAfter m label name x elements [] f
  | noValue {done rest : List Node} {element : Node} {values : List Value} {f : Fault}
      (hroom : ((done ++ element :: rest).length : Int) ≤ x.capacity)
      (hdone : InitialValues m name x [] done values)
      (hf : ∃ fuel, ((evaluate fuel element).on (m.withArray name (x.filled values))).1
        = .error (.fault f)) :
      StopsAfter m label name x (done ++ element :: rest) values f
  | otherType {done rest : List Node} {element : Node} {values : List Value} {v : Value}
      (hroom : ((done ++ element :: rest).length : Int) ≤ x.capacity)
      (hdone : InitialValues m name x [] done values)
      (hv : ∃ fuel, ((evaluate fuel element).on (m.withArray name (x.filled values))).1 = .ok v)
      (htag : v.hasTag x.elem = false) :
      StopsAfter m label name x (done ++ element :: rest) values
        (ArrayObject.mismatchFault (m.withArray name (x.filled values)).heap label values.length
          x.elem v)

section Arrays

variable {name : Name} {label : Label} {x : ArrayObject} {elem : Tag} {extents : List Int}
  {rows cols : Int} {done elements : List Node} {before values : List Value} {v : Value} {f : Fault}

/-- One more initial element that has a value. -/
theorem InitialValues.snoc (h : InitialValues m name x before done values) {element : Node}
    (hcall : element.hasCall = false) (htag : v.hasTag x.elem)
    (hvalue : ∃ fuel, ((evaluate fuel element).on
      (m.withArray name (x.filled (before ++ values)))).1 = .ok v) :
    InitialValues m name x before (done ++ [element]) (values ++ [v]) := by
  induction h with
  | nil =>
    rw [List.append_nil] at hvalue
    exact .cons hcall htag hvalue .nil
  | cons hfirst htagFirst hvalueFirst _ ih =>
    rw [List.append_cons] at hvalue
    exact .cons hfirst htagFirst hvalueFirst (ih hvalue)

/-- Filling the array with elements without calls leaves it filled with the values before the place
where it stopped. -/
theorem fillFrom_stopsAfter (hx : x.HasShape elem extents) (hrows : 0 ≤ x.extents.1)
    (hlevel : m.level < 3) (hcalls : ∀ e ∈ elements, e.hasCall = false)
    (hdone : InitialValues m name x [] done values)
    (hroom : ((done ++ elements).length : Int) ≤ x.capacity) {r : Except Stop Unit}
    (h : (fillFrom fuel label m.heap.size values.length elements).on
      (m.withArray name (x.filled values)) = (r, m')) :
    ∃ stored, m' = m.withArray name (x.filled stored) ∧
      ∀ f, r = .error (.fault f) → StopsAfter m label name x (done ++ elements) stored f := by
  -- the elements before those of the induction are stored already
  induction elements generalizing done values fuel with
  | nil =>
    rw [fillFrom_nil] at h
    cases h
    exact ⟨values, rfl, nofun⟩
  | cons element rest ih =>
    rw [List.forall_mem_cons] at hcalls
    cases fuel with
    | zero =>
      cases h
      exact ⟨values, rfl, nofun⟩
    | succ fuel =>
      have hstill := stillBelow_evaluate (le_refl 3) hcalls.1 fuel
        (m.withArray name (x.filled values)) hlevel
      rcases heval : (evaluate fuel element).on (m.withArray name (x.filled values)) with ⟨r₁, m₁⟩
      rw [heval] at hstill
      simp only at hstill
      subst hstill
      have hresult : ((evaluate fuel element).on (m.withArray name (x.filled values))).1 = r₁ :=
        congrArg Prod.fst heval
      cases r₁ with
      | error s =>
        rw [fillFrom, on_bind, heval] at h
        cases h
        refine ⟨values, rfl, fun f hf => ?_⟩
        cases hf
        exact .noValue hroom hdone ⟨fuel, hresult⟩
      | ok v =>
        have hplace : (values.length : Int) < x.capacity := by
          rw [List.length_append, List.length_cons, ← hdone.length_eq] at hroom
          omega
        rw [on_fillFrom_cons hx hrows hplace heval] at h
        cases htag : v.hasTag x.elem with
        | false =>
          rw [htag] at h
          cases h
          refine ⟨values, rfl, fun f hf => ?_⟩
          cases hf
          exact .otherType hroom hdone ⟨fuel, hresult⟩ htag
        | true =>
          have hsnoc : InitialValues m name x [] (done ++ [element]) (values ++ [v]) :=
            hdone.snoc hcalls.1 htag ⟨fuel, hresult⟩
          rw [if_pos htag] at h
          obtain ⟨stored, hm, hstops⟩ := ih hcalls.2 hsnoc (by simpa using hroom) h
          rw [List.append_assoc] at hstops
          exact ⟨stored, hm, hstops⟩

/-- Below the level of its record, a declaration without initial elements is done when the array has
its name. -/
theorem on_arrayDecl_none (hname : Name.ofLabel label = .ok name)
    (hx : ArrayObject.allocate elem extents = .ok x) (hlevel : m.level < 2) (fuel : Nat) :
    (execute (fuel + 1) (.arrayDecl label elem extents none)).on m
      = (.ok none, m.withArray name x) := by
  rw [execute_arrayDecl]
  simp only [allocateArray, initialElements, bind_assoc, hx]
  simp only [allocate, Action.bind, on_bind, on_lift_ok, on_get, on_set, on_pure, hname, on_modify,
    on_record]
  rw [if_neg (by omega)]
  rfl

/-- A declaration that fails has made its array and named it, and stored the values before the
element that it fails at. -/
theorem arrayDecl_stopsAfter (hname : Name.ofLabel label = .ok name)
    (hextents : HostExtents extents rows cols) (hlevel : m.level < 2)
    {init : Option (List Node)} (hcalls : ∀ e ∈ init.getD [], e.hasCall = false)
    (h : (execute fuel (.arrayDecl label elem extents init)).on m = (.error (.fault f), m')) :
    ∃ x stored, ArrayObject.allocate elem extents = .ok x ∧
      StopsAfter m label name x (init.getD []) stored f ∧
      m' = m.withArray name (x.filled stored) := by
  obtain ⟨x, hx, hrowscols, -, hrows⟩ := hextents.exists_allocate elem
  cases fuel with
  | zero => cases h
  | succ fuel =>
    cases init with
    | none =>
      rw [on_arrayDecl_none hname hx hlevel] at h
      cases h
    | some elements =>
      rw [on_arrayDecl hname hx, on_bind] at h
      cases hcheck : x.checkCapacity label elements.length with
      | error g =>
        -- the message, too, may be what fails, but only if there is no room
        rw [hcheck, on_lift_error] at h
        cases h
        have hmany : x.capacity < elements.length := by
          by_contra hroom
          rw [ArrayObject.checkCapacity, if_neg hroom] at hcheck
          cases hcheck
        refine ⟨x, [], hx, .noRoom hmany hcheck, ?_⟩
        rw [ArrayObject.filled_nil hx]
      | ok _ =>
        have hroom := ArrayObject.checkCapacity_ok hcheck
        rw [hcheck, on_lift_ok] at h
        simp only at h
        rw [on_bind, ← ArrayObject.filled_nil hx] at h
        rcases hfill : (fillFrom fuel label m.heap.size 0 elements).on
          (m.withArray name (x.filled [])) with ⟨r, m₁⟩
        have hnone : InitialValues m name x [] [] [] := .nil
        obtain ⟨stored, hm, hstops⟩ := fillFrom_stopsAfter (ArrayObject.hasShape_allocate hx)
          (by rw [hrowscols]; exact hrows) (by omega) hcalls hnone (by simpa using hroom) hfill
        rw [hfill] at h
        cases r with
        | error s =>
          cases h
          exact ⟨x, stored, hx, hstops f rfl, hm⟩
        | ok _ =>
          -- what is left is a record above the level of the trace
          subst hm
          have hlevel' : ¬2 ≤ (m.withArray name (x.filled stored)).level := Int.not_le.2 hlevel
          simp only at h
          rw [on_bind, on_record, if_neg hlevel'] at h
          cases h

/-! ### One way to stop -/

/-- An expression that ends with one fuel and with another ends in the same way. -/
theorem evaluate_unique {n : Node} {r r' : Except Stop Value}
    (hr : ∃ fuel, ((evaluate fuel n).on m).1 = r) (hr' : ∃ fuel, ((evaluate fuel n).on m).1 = r')
    (hends : r ≠ .error .outOfFuel) (hends' : r' ≠ .error .outOfFuel) : r = r' := by
  obtain ⟨f, rfl⟩ := hr
  obtain ⟨g, rfl⟩ := hr'
  rw [← evaluate_of_le (le_max_left f g) hends, ← evaluate_of_le (le_max_right f g) hends']

/-- No value of the expression has the type of the elements, on the machine where the array is
filled with these values. -/
def NoElement (m : Machine) (name : Name) (x : ArrayObject) (values : List Value) (n : Node) :
    Prop :=
  ∀ v, (∃ fuel, ((evaluate fuel n).on (m.withArray name (x.filled values))).1 = .ok v) →
    v.hasTag x.elem = false

theorem noElement_of_error {values : List Value} {n : Node}
    (hf : ∃ fuel, ((evaluate fuel n).on (m.withArray name (x.filled values))).1
      = .error (.fault f)) : NoElement m name x values n := by
  intro v hv
  cases evaluate_unique hf hv nofun nofun

theorem noElement_of_otherType {values : List Value} {n : Node}
    (hv : ∃ fuel, ((evaluate fuel n).on (m.withArray name (x.filled values))).1 = .ok v)
    (htag : v.hasTag x.elem = false) : NoElement m name x values n := by
  intro v' hv'
  cases evaluate_unique hv hv' nofun nofun
  exact htag

/-- The first element without such a value is one element, and those before it have one list of
values. -/
theorem InitialValues.first_unique {done' rest rest' : List Node} {element element' : Node}
    {values' : List Value} (h : InitialValues m name x before done values)
    (h' : InitialValues m name x before done' values')
    (hstop : NoElement m name x (before ++ values) element)
    (hstop' : NoElement m name x (before ++ values') element')
    (heq : done ++ element :: rest = done' ++ element' :: rest') :
    values = values' ∧ element = element' := by
  -- on the elements before it: a shorter list would stop at an element that has a value
  induction h generalizing done' values' with
  | nil =>
    cases h' with
    | nil => exact ⟨rfl, (List.cons.inj heq).1⟩
    | cons _ htag hvalue _ =>
      obtain ⟨rfl, -⟩ := List.cons.inj heq
      rw [List.append_nil] at hstop
      cases htag.symm.trans (hstop _ hvalue)
  | cons _ htag hvalue _ ih =>
    cases h' with
    | nil =>
      obtain ⟨rfl, -⟩ := List.cons.inj heq
      rw [List.append_nil] at hstop'
      cases htag.symm.trans (hstop' _ hvalue)
    | cons _ _ hvalue' hrest' =>
      obtain ⟨rfl, hrest⟩ := List.cons.inj heq
      cases evaluate_unique hvalue hvalue' nofun nofun
      rw [List.append_cons] at hstop hstop'
      obtain ⟨rfl, rfl⟩ := ih hrest' hstop hstop' hrest
      exact ⟨rfl, rfl⟩

/-- A declaration has one list of values that it stores and one fault that it stops with. -/
theorem StopsAfter.unique {elements' : List Node} {stored stored' : List Value} {f f' : Fault}
    (h : StopsAfter m label name x elements stored f)
    (h' : StopsAfter m label name x elements' stored' f') (heq : elements = elements') :
    stored = stored' ∧ f = f' := by
  have hlength := congrArg List.length heq
  cases h with
  | noRoom hmany hf =>
    cases h' with
    | noRoom _ hf' =>
      subst heq
      exact ⟨rfl, Except.error.inj (hf.symm.trans hf')⟩
    | noValue hroom | otherType hroom => omega
  | noValue hroom hdone hf =>
    cases h' with
    | noRoom hmany => omega
    | noValue _ hdone' hf' =>
      obtain ⟨rfl, rfl⟩ := hdone.first_unique hdone' (noElement_of_error hf)
        (noElement_of_error hf') heq
      cases evaluate_unique hf hf' nofun nofun
      exact ⟨rfl, rfl⟩
    | otherType _ hdone' hv htag =>
      obtain ⟨rfl, rfl⟩ := hdone.first_unique hdone' (noElement_of_error hf)
        (noElement_of_otherType hv htag) heq
      cases evaluate_unique hf hv nofun nofun
  | otherType hroom hdone hv htag =>
    cases h' with
    | noRoom hmany => omega
    | noValue _ hdone' hf =>
      obtain ⟨rfl, rfl⟩ := hdone.first_unique hdone' (noElement_of_otherType hv htag)
        (noElement_of_error hf) heq
      cases evaluate_unique hf hv nofun nofun
    | otherType _ hdone' hv' htag' =>
      obtain ⟨rfl, rfl⟩ := hdone.first_unique hdone' (noElement_of_otherType hv htag)
        (noElement_of_otherType hv' htag') heq
      cases evaluate_unique hv hv' nofun nofun
      exact ⟨rfl, rfl⟩

/-- Where the trace has a level below 2, a statement that stores one value and has no call in its
expressions leaves the machine as it was when it fails. A declaration of an array, whose extents are
lengths that a list of the host can have, leaves a new array under the name, with the values of the
initial elements before the one that it fails at, each at its position, and undefined elsewhere;
nothing else has changed. There is one such list of values, and one fault that goes with it. -/
theorem machine_after_failure (hlevel : m.level < 2) (fuel : Nat) :
    (∀ n m' s, n.isStore → (∀ e ∈ n.expressions, e.hasCall = false) →
      (execute fuel n).on m = (.error s, m') → m' = m) ∧
    ∀ label name elem extents rows cols init f m', Name.ofLabel label = .ok name →
      HostExtents extents rows cols →
      (∀ e ∈ (Node.arrayDecl label elem extents init).expressions, e.hasCall = false) →
      (execute fuel (.arrayDecl label elem extents init)).on m = (.error (.fault f), m') →
      ∃ x stored, ArrayObject.allocate elem extents = .ok x ∧
        StopsAfter m label name x (init.getD []) stored f ∧
        (∀ stored' f', StopsAfter m label name x (init.getD []) stored' f' →
          stored' = stored ∧ f' = f) ∧
        m' = m.withArray name (x.filled stored) ∧
        m'.scope.get? name.key = some (.array m.heap.size) ∧
        (∀ key, key ≠ name.key → m'.scope.get? key = m.scope.get? key) ∧
        (∀ address < m.heap.size, m'.heap[address]? = m.heap[address]?) ∧
        m'.printed = m.printed ∧
        ∀ i j, 0 ≤ i → i < rows → 0 ≤ j → j < cols →
          Heap.read m'.heap label (.array m.heap.size) [.int i, .int j]
            = .ok (stored.getD (i + j * rows).toNat .undefined) := by
  refine ⟨fun n m' s hn hcalls h => allOrNothing_execute hn hcalls fuel m m' s hlevel h, ?_⟩
  intro label name elem extents rows cols init f m' hname hextents hcalls h
  obtain ⟨x, stored, hx, hstops, hm⟩ := arrayDecl_stopsAfter hname hextents hlevel hcalls h
  obtain ⟨y, hy, hrowscols, -, -⟩ := hextents.exists_allocate elem
  rw [hx] at hy
  cases hy
  subst hm
  refine ⟨x, stored, hx, hstops, fun stored' f' hstops' => hstops'.unique hstops rfl, rfl, ?_,
    fun key hkey => ?_, fun address haddress => ?_, rfl, fun i j hi hilt hj hjlt => ?_⟩
  · simp only [Machine.withArray, Scope.get?_set, ↓reduceIte]
  · simp only [Machine.withArray, Scope.get?_set, if_neg hkey]
  · show (m.heap.push (x.filled stored))[address]? = m.heap[address]?
    rw [Array.getElem?_push, if_neg (by omega)]
  · have hr : x.InRange i j := by
      rw [ArrayObject.InRange, hrowscols]
      exact ⟨hi, hilt, hj, hjlt⟩
    have hread := (ArrayObject.hasShape_allocate hx).read_withArray label stored m name hr
    rw [hrowscols] at hread
    exact hread

/-- An array of integers with three initial elements, of which the second reads the first and the
third is of another type. -/
def declareWrongThird : Node :=
  .arrayDecl "a" .int [2, 2]
    (some [.literal "5" "int", .arrayAccess "a" [.literal "0" "int"], .literal "true" "bool"])

theorem machine_after_failure_wrongThird :
    (∃ m' : Machine,
      (execute 8 declareWrongThird).on {}
        = (.error (.fault (.elementMismatch "a" 2 .int "bool")), m') ∧
      m'.scope.get? (.word "a") = some (.array 0) ∧
      Heap.read m'.heap "a" (.array 0) [.int 0, .int 0] = .ok (.int 5) ∧
      Heap.read m'.heap "a" (.array 0) [.int 1, .int 0] = .ok (.int 5) ∧
      Heap.read m'.heap "a" (.array 0) [.int 0, .int 1] = .ok .undefined ∧
      Heap.read m'.heap "a" (.array 0) [.int 1, .int 1] = .ok .undefined) ∧
    (execute 8 (.assign "a" (.ident "b"))).on {}
      = (.error (.fault (.undefinedVariable "b")), {}) := by
  obtain ⟨hstore, hdeclare⟩ := machine_after_failure (m := {}) (by decide) 8
  constructor
  · have hname : Name.ofLabel "a" = .ok (Name.ofWord "a") := rfl
    have hextents : HostExtents [2, 2] 2 2 := .grid (by decide) (by decide) (.inr (by decide))
    have hfails : ((execute 8 declareWrongThird).on {}).1
        = .error (.fault (.elementMismatch "a" 2 .int "bool")) := by cbv
    rcases hrun : (execute 8 declareWrongThird).on {} with ⟨r, m'⟩
    rw [hrun] at hfails
    simp only at hfails
    subst hfails
    obtain ⟨x, stored, hx, -, honly, -, hbound, -, -, -, hread⟩ :=
      hdeclare "a" _ .int [2, 2] 2 2 _ _ m' hname hextents (by decide) hrun
    cases hx
    -- the first two elements are 5, and the third is a truth value
    have hdone : InitialValues {} (Name.ofWord "a")
        (.grid .int 2 2 (Array.replicate 2 (undefinedCells 2))) []
        [.literal "5" "int", .arrayAccess "a" [.literal "0" "int"]] [.int 5, .int 5] :=
      .cons rfl rfl ⟨1, rfl⟩ (.cons rfl rfl ⟨2, rfl⟩ .nil)
    have hstops : StopsAfter {} "a" (Name.ofWord "a")
        (.grid .int 2 2 (Array.replicate 2 (undefinedCells 2)))
        ([.literal "5" "int", .arrayAccess "a" [.literal "0" "int"]] ++ [.literal "true" "bool"])
        [.int 5, .int 5] _ :=
      .otherType (by decide) hdone ⟨1, rfl⟩ rfl
    obtain ⟨rfl, -⟩ := honly _ _ hstops
    exact ⟨m', rfl, hbound, hread 0 0 (by decide) (by decide) (by decide) (by decide),
      hread 1 0 (by decide) (by decide) (by decide) (by decide),
      hread 0 1 (by decide) (by decide) (by decide) (by decide),
      hread 1 1 (by decide) (by decide) (by decide) (by decide)⟩
  · have hfails : ((execute 8 (.assign "a" (.ident "b"))).on {}).1
        = .error (.fault (.undefinedVariable "b")) := rfl
    rcases hrun : (execute 8 (.assign "a" (.ident "b"))).on {} with ⟨r, m'⟩
    rw [hrun] at hfails
    simp only at hfails
    subst hfails
    rw [hstore (.assign "a" (.ident "b")) m' _ rfl (by decide) hrun]

/-- A grid with rows longer than any list of the host is not made, so that its name keeps what it
stood for. -/
theorem arrayDecl_beyond_host :
    let before : Machine := { scope := Scope.builtins.set (Name.ofWord "a") (.int 1) }
    let declare : Node :=
      .arrayDecl "a" .int [1, 0x8000000000000000] (some [.literal "7" "int"])
    before.level = 0 ∧ (∀ e ∈ declare.expressions, e.hasCall = false) ∧
    (execute 3 declare).on before = (.error (.fault .extentOutOfRange), before) ∧
    before.scope.get "a" = .ok (.int 1) := by
  refine ⟨rfl, by decide, rfl, rfl⟩

end Arrays

end MiniAlgol
