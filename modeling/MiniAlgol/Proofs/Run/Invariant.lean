import MiniAlgol.Proofs.Heap.Store
import MiniAlgol.Proofs.Run.Primitives

/-!
# Invariants of a run

An `Invariant` says which trees and routines may run, which arrays a run may hold, what is true of
the heap, and which faults may come up. `Kept` asks that allocating an array and storing an element
keep it, and `Allows` that it allows the faults that the actions of a run can have; then every run
keeps it, however it ends (`Kept.run`, `Kept.call`).

This is the simulation of a run by itself, at the worlds that are heaps.
-/

namespace MiniAlgol

open MiniAlgol.Action Simulation

/-- What is to hold throughout a run. -/
structure Invariant where
  expression : Node → Prop
  statement : Node → Prop
  routine : Routine → Prop
  /-- The arrays that the run may hold. -/
  address : Heap → Nat → Prop
  heap : Heap → Prop
  /-- The faults that may come up. -/
  fault : Heap → Fault → Prop
  address_grows : ∀ {h h' a}, Heap.Grows h h' → address h a → address h' a

namespace Invariant

variable {I : Invariant} {h h' : Heap} {α : Type}

/-- The values that the run may hold. -/
def value (I : Invariant) (h : Heap) : Value → Prop
  | .array a => I.address h a
  | .routine _ r => I.routine r
  | _ => True

theorem value_grows {v : Value} (hg : Heap.Grows h h') (hv : I.value h v) : I.value h' v := by
  cases v with
  | array a => exact I.address_grows hg hv
  | _ => exact hv

theorem value_of_isScalar {v : Value} (hv : v.isScalar) : I.value h v := by
  cases v with
  | array a => cases hv
  | routine id r => cases hv
  | _ => trivial

/-- One value in both of two equal runs. -/
def both (I : Invariant) (h : Heap) (v v' : Value) : Prop :=
  v = v' ∧ I.value h v

/-- The invariant of a machine. -/
structure Holds (I : Invariant) (m : Machine) : Prop where
  heap : I.heap m.heap
  scope : Scope.Related (I.both m.heap) m.scope m.scope

/-- All values in scope are ones that the run may hold. -/
theorem holds_iff {m : Machine} :
    I.Holds m ↔ I.heap m.heap ∧ ∀ key v, m.scope.get? key = some v → I.value m.heap v := by
  refine ⟨fun hm => ⟨hm.heap, fun key v hv => ?_⟩, fun ⟨hheap, hscope⟩ => ⟨hheap, fun key => ?_⟩⟩
  · have hrel := hm.scope key
    rw [hv] at hrel
    cases hrel with
    | some hv => exact hv.2
  · cases hv : m.scope.get? key with
    | none => exact .none
    | some v => exact .some ⟨rfl, hscope key v hv⟩

/-- Simulation of a run by itself. -/
abbrev simulation (I : Invariant) : Simulation where
  World := Heap
  later := Heap.Grows
  machine h m n := m = n ∧ m.heap = h ∧ I.Holds m
  value := I.both
  scope h s s' := s = s' ∧ Scope.Related (I.both h) s s'
  fault h f g := f = g ∧ I.fault h f
  room h a a' count := a = a' ∧ ∃ x, h[a]? = some x ∧ count ≤ x.capacity
  expression := I.expression
  statement := I.statement
  routine := I.routine
  exempt _ := False
  later_refl := Heap.Grows.refl
  later_trans := Heap.Grows.trans
  value_later hg hv := ⟨hv.1, value_grows hg hv.2⟩
  scope_later hg hs := ⟨hs.1, hs.2.imp fun _ _ hv => ⟨hv.1, value_grows hg hv.2⟩⟩
  room_later := by
    rintro h h' a a' count hg ⟨ha, x, hx, hcount⟩
    obtain ⟨x', hx', -, hext⟩ := hg a x hx
    refine ⟨ha, x', hx', ?_⟩
    rw [ArrayObject.capacity, hext]
    exact hcount

/-- Values in both of two equal runs. -/
theorem values_iff {vs vs' : List Value} :
    I.simulation.values h vs vs' ↔ vs = vs' ∧ ∀ v ∈ vs, I.value h v := by
  constructor
  · intro hvs
    have heq : vs = vs' := List.forall₂_eq_eq_eq ▸ hvs.imp fun _ _ hv => hv.1
    subst heq
    exact ⟨rfl, fun v hv => (List.forall₂_same.1 hvs v hv).2⟩
  · rintro ⟨rfl, hvs⟩
    exact List.forall₂_same.2 fun v hv => ⟨rfl, hvs v hv⟩

/-! ## How a run leaves a machine -/

/-- The end of a run from a machine with this heap. -/
inductive Leaves (I : Invariant) (h : Heap) (P : Heap → α → Prop) :
    Except Stop α × Machine → Prop where
  | ok {a : α} {m : Machine} (hg : Heap.Grows h m.heap) (hm : I.Holds m) (hP : P m.heap a) :
      Leaves I h P (.ok a, m)
  | fault {f : Fault} {m : Machine} (hg : Heap.Grows h m.heap) (hm : I.Holds m)
      (hf : I.fault m.heap f) : Leaves I h P (.error (.fault f), m)
  | outOfFuel {m : Machine} (hg : Heap.Grows h m.heap) (hm : I.Holds m) :
      Leaves I h P (.error .outOfFuel, m)

/-- The same result in both of two equal runs. -/
def diagonal (P : Heap → α → Prop) (h : Heap) (a b : α) : Prop :=
  a = b ∧ P h a

theorem agrees_of_leaves {x : Action α} {P : Heap → α → Prop}
    (hx : ∀ m, Heap.Grows h m.heap → I.Holds m → I.Leaves m.heap P (x.on m)) :
    I.simulation.Agrees h x x (diagonal P) := by
  rintro w m _ hw ⟨rfl, rfl, hm⟩
  have hleaves := hx m hw hm
  generalize x.on m = r at hleaves ⊢
  cases hleaves with
  | ok hg hm' hP => exact .ok hg ⟨rfl, rfl, hm'⟩ ⟨rfl, hP⟩
  | fault hg hm' hf => exact .error hg ⟨rfl, rfl, hm'⟩ ⟨rfl, hf⟩
  | outOfFuel hg hm' => exact .error hg ⟨rfl, rfl, hm'⟩ trivial

theorem leaves_of_agrees {x : Action α} {P : Heap → α → Prop} {Q : Heap → α → α → Prop}
    {m : Machine} (hx : I.simulation.Agrees m.heap x x Q) (hm : I.Holds m)
    (hQ : ∀ h a b, Q h a b → P h a) : I.Leaves m.heap P (x.on m) := by
  have hends := hx m.heap m m (Heap.Grows.refl m.heap) ⟨rfl, rfl, hm⟩
  generalize x.on m = r at hends ⊢
  cases hends with
  | exempt hs => exact hs.elim
  | ok hg hm' hpost =>
    obtain ⟨-, rfl, hm'⟩ := hm'
    exact .ok hg hm' (hQ _ _ _ hpost)
  | @error _ s _ m' _ hg hm' hs =>
    obtain ⟨-, rfl, hm'⟩ := hm'
    cases s with
    | fault f => exact .fault hg hm' hs.2
    | outOfFuel => exact .outOfFuel hg hm'

theorem Leaves.holds {P : Heap → α → Prop} {r : Except Stop α × Machine} (hr : I.Leaves h P r) :
    I.Holds r.2 := by
  cases hr with
  | ok _ hm _ | fault _ hm _ | outOfFuel _ hm => exact hm

theorem holds_of_agrees {x : Action α} {Q : Heap → α → α → Prop} {m : Machine}
    (hx : I.simulation.Agrees m.heap x x Q) (hm : I.Holds m) : I.Holds (x.on m).2 :=
  (leaves_of_agrees (P := fun _ _ => True) hx hm fun _ _ _ _ => trivial).holds

/-- What an action with a result leaves. -/
theorem after {x : Action α} {Q : Heap → α → α → Prop} {m m' : Machine} {a : α} (hm : I.Holds m)
    (hx : I.simulation.Agrees m.heap x x Q) (h : x.on m = (.ok a, m')) :
    I.Holds m' ∧ Q m'.heap a a ∧ Heap.Grows m.heap m'.heap := by
  have hends := hx m.heap m m (Heap.Grows.refl m.heap) ⟨rfl, rfl, hm⟩
  rw [h] at hends
  cases hends with
  | ok hg hm' hpost =>
    obtain ⟨-, rfl, hholds⟩ := hm'
    exact ⟨hholds, hpost, hg⟩

/-! ## The laws of an invariant -/

/-- The parts of what may run may run, and the steps of a run that change the heap keep the
invariant. -/
structure Kept (I : Invariant) : Prop where
  expression_parts : ∀ {n}, I.expression n → ∀ e ∈ n.expressions, I.expression e
  statement_expressions : ∀ {n}, I.statement n → ∀ e ∈ n.expressions, I.expression e
  statement_parts : ∀ {n}, I.statement n → ∀ s ∈ n.statements, I.statement s
  routine_body : ∀ {r}, I.routine r → ∀ s ∈ r.body, I.statement s
  declared : ∀ {kind name params body}, I.statement (.routineDecl kind name params body) →
    I.routine ⟨name, params, body, kind.name⟩
  element : ∀ {h : Heap} {a x v}, I.heap h → I.address h a → h[a]? = some x → v ∈ x.elements →
    I.value h v
  push : ∀ {h : Heap} {name elem extents init x}, I.heap h →
    I.statement (.arrayDecl name elem extents init) → ArrayObject.allocate elem extents = .ok x →
    I.heap (h.push x) ∧ I.address (h.push x) h.size
  /-- Only a statement stores a value without the type of the elements. -/
  put : ∀ {h : Heap} {a x x' i j v}, I.heap h → I.address h a → h[a]? = some x → I.value h v →
    (v.hasTag x.elem ∨ ∃ name indices value, I.statement (.indexAssign name indices value)) →
    x.put i j v = .ok x' → I.heap (h.setIfInBounds a x')

/-- The faults that the actions of a run can have are allowed. -/
structure Allows (I : Invariant) : Prop where
  language : ∀ {h} {f : Fault}, f.kind?.isSome → I.fault h f
  tooLong : ∀ h, I.fault h (.numeral .tooLongToWrite)
  endless : ∀ {h v}, I.heap h → I.value h v → v.plainText h = .error .endlessText →
    I.fault h .endlessText
  notExpression : ∀ {h n}, I.expression n → n.isExpression = false →
    I.fault h (.notExpression n.kindName?)
  notStatement : ∀ {h n}, I.statement n → n.isStatement = false →
    I.fault h (.notStatement n.kindName?)
  literal : ∀ {h text kind f}, I.expression (.literal text kind) →
    literalValue text kind = .error f → I.fault h f
  label : ∀ {h n name f}, I.expression n ∨ I.statement n → n.label? = some name →
    Name.ofLabel name = .error f → I.fault h f
  params : ∀ {h r f}, I.routine r → r.params.mapM Name.ofLabel = .error f → I.fault h f
  words : ∀ {h kind name params body f}, I.statement (.routineDecl kind name params body) →
    wordsFrom 0 params = .error f → I.fault h f
  noIndex : ∀ {h name}, I.expression (.arrayAccess name []) → I.fault h .noElement
  noIndexToStore : ∀ {h name value}, I.statement (.indexAssign name [] value) →
    I.fault h .noElement
  get : ∀ {h : Heap} {a x i j f}, I.heap h → I.address h a → h[a]? = some x → x.InRange i j →
    x.get i j = .error f → I.fault h f
  put : ∀ {h : Heap} {a x i j v f}, I.heap h → I.address h a → h[a]? = some x → x.InRange i j →
    x.put i j v = .error f → I.fault h f
  fill : ∀ {h : Heap} {a x name} {index : Nat} {v f}, I.heap h → I.address h a →
    h[a]? = some x → index < x.capacity → x.fill h name index v = .error f → I.fault h f
  allocate : ∀ {h name elem extents init f}, I.statement (.arrayDecl name elem extents init) →
    ArrayObject.allocate elem extents = .error f → I.fault h f

/-- An invariant that says nothing about faults. -/
theorem allows_of_fault (h : ∀ {heap f}, I.fault heap f) : I.Allows := by
  constructor <;> intros <;> exact h

/-! ## The actions of a run -/

section Actions

variable {F : Machine → Except Fault α} {P : Heap → α → Prop} {v : Value} {vs : List Value}

/-- An action that only looks at the machine. -/
theorem agrees_look
    (hok : ∀ m a, Heap.Grows h m.heap → I.Holds m → F m = .ok a → P m.heap a)
    (hfault : ∀ m f, Heap.Grows h m.heap → I.Holds m → F m = .error f → I.fault m.heap f) :
    I.simulation.Agrees h (do lift (F (← get))) (do lift (F (← get))) (diagonal P) := by
  refine agrees_of_leaves fun m hg hm => ?_
  rw [on_bind, on_get]
  simp only
  cases hF : F m with
  | ok a => exact .ok (Heap.Grows.refl _) hm (hok m a hg hm hF)
  | error f => exact .fault (Heap.Grows.refl _) hm (hfault m f hg hm hF)

theorem Allows.text (A : I.Allows) {f : Fault} (hh : I.heap h) (hv : I.value h v)
    (ht : v.plainText h = .error f) : I.fault h f := by
  rcases Value.plainText_error ht with rfl | rfl
  · exact A.tooLong h
  · exact A.endless hh hv ht

theorem agrees_plainText (A : I.Allows) (hv : I.value h v) :
    I.simulation.Agrees h (plainText v) (plainText v) same :=
  Agrees.imp (agrees_look (P := fun _ _ => True) (fun _ _ _ _ _ => trivial)
    fun _ _ hg hm ht => A.text hm.heap (value_grows hg hv) ht) fun _ _ _ hab => hab.1

theorem agrees_typeName (A : I.Allows) (v : Value) :
    I.simulation.Agrees h (typeName v) (typeName v) same :=
  Agrees.imp (agrees_look (P := fun _ _ => True) (fun _ _ _ _ _ => trivial)
    fun _ _ _ _ ht => Value.typeName_error ht ▸ A.tooLong _) fun _ _ _ hab => hab.1

theorem agrees_record {level : Int} {event : Heap → Except Fault Event}
    (hfault : ∀ h' f, Heap.Grows h h' → I.heap h' → event h' = .error f → I.fault h' f) :
    I.simulation.Agrees h (record level event) (record level event) any := by
  refine Agrees.imp (agrees_of_leaves (P := fun _ _ => True) fun m hg hm => ?_)
    fun _ _ _ _ => trivial
  rw [on_record]
  split
  · cases he : event m.heap with
    | error f => exact .fault (Heap.Grows.refl _) hm (hfault _ f hg hm.heap he)
    | ok e =>
      -- what is traced is no part of the invariant
      obtain ⟨traced, hnote⟩ := exists_note m e
      simp only [hnote]
      exact .ok (Heap.Grows.refl _) ⟨hm.heap, hm.scope⟩ trivial
  · exact .ok (Heap.Grows.refl _) hm trivial

theorem agrees_tells (A : I.Allows) {level : Int} {event event' : Heap → Except Fault Event}
    (ht : I.simulation.Tells h level event event') :
    I.simulation.Agrees h (record level event) (record level event') any := by
  obtain rfl := ht.eq fun _ _ hv => hv.1
  refine agrees_record fun h' f _ _ he => ?_
  rcases ht.error he with rfl | ⟨kind, name, params, body, hs, hwords⟩
  · exact A.tooLong h'
  · exact A.words hs hwords

theorem agrees_operate (A : I.Allows) {op : Label} {a b : Value} (ha : I.value h a)
    (hb : I.value h b) : I.simulation.Agrees h (operate op a b) (operate op a b) I.both := by
  refine agrees_look (fun m v _ _ hv => value_of_isScalar (Value.apply_ok hv))
    fun m f hg hm hf => ?_
  rcases Value.apply_error hf with (hf | rfl) | hf | hf
  · exact A.language hf
  · exact A.tooLong _
  · exact A.text hm.heap (value_grows hg ha) hf
  · exact A.text hm.heap (value_grows hg hb) hf

theorem agrees_readElement (K : I.Kept) (A : I.Allows) {name : Label} {t : Value}
    (ht : I.value h t) (hempty : vs = [] → ∀ h, I.fault h .noElement) :
    I.simulation.Agrees h (readElement name t vs) (readElement name t vs) I.both := by
  refine agrees_look (fun m v hg hm hv => ?_) fun m f hg hm hf => ?_
  · obtain ⟨a, x, i, j, rfl, hx, -, hget⟩ := Heap.read_ok hv
    exact K.element hm.heap (I.address_grows hg ht) hx (ArrayObject.get_mem hget)
  · rcases Heap.read_error hf with (hf | rfl | ⟨hnil, rfl⟩) | ⟨a, x, i, j, rfl, hx, hr, hget⟩
    · exact A.language hf
    · exact A.tooLong _
    · exact hempty hnil _
    · exact A.get hm.heap (I.address_grows hg ht) hx hr hget

/-- Storing an element of an array in the heap. -/
theorem Kept.holds_put (K : I.Kept) {m : Machine} {a : Nat} {x x' : ArrayObject} {i j : Int}
    (hm : I.Holds m) (ha : I.address m.heap a) (hx : m.heap[a]? = some x)
    (hv : I.value m.heap v)
    (hfits : v.hasTag x.elem ∨ ∃ name indices value, I.statement (.indexAssign name indices value))
    (hput : x.put i j v = .ok x') :
    I.Holds { m with heap := m.heap.setIfInBounds a x' } := by
  -- what the names stood for, they still stand for
  refine ⟨K.put hm.heap ha hx hv hfits hput, hm.scope.imp fun u _ hu => ?_⟩
  exact ⟨hu.1, value_grows (Heap.Grows.set hx hput) hu.2⟩

theorem agrees_write (K : I.Kept) (A : I.Allows) {name : Label} {indices : List Node} {value : Node}
    {t : Value} (hn : I.statement (.indexAssign name indices value)) (ht : I.value h t)
    (hv : I.value h v) (hempty : vs = [] → ∀ h, I.fault h .noElement) :
    I.simulation.Agrees h (changeHeap fun heap => Heap.write heap name t vs v)
      (changeHeap fun heap => Heap.write heap name t vs v) any := by
  refine Agrees.imp (agrees_of_leaves (P := fun _ _ => True) fun m hg hm => ?_)
    fun _ _ _ _ => trivial
  simp only [changeHeap]
  rw [on_bind, on_get]
  simp only
  rw [on_bind]
  cases hw : Heap.write m.heap name t vs v with
  | ok heap' =>
    obtain ⟨a, x, i, j, x', rfl, hx, -, hput, rfl⟩ := Heap.write_ok hw
    refine .ok (Heap.Grows.set hx hput) ?_ trivial
    exact K.holds_put hm (I.address_grows hg ht) hx (value_grows hg hv)
      (.inr ⟨name, indices, value, hn⟩) hput
  | error f =>
    refine .fault (Heap.Grows.refl _) hm ?_
    rcases Heap.write_error hw with (hf | rfl | ⟨hnil, rfl⟩) | ⟨a, x, i, j, rfl, hx, hr, hput⟩
    · exact A.language hf
    · exact A.tooLong _
    · exact hempty hnil _
    · exact A.put hm.heap (I.address_grows hg ht) hx hr hput

theorem agrees_fill (K : I.Kept) (A : I.Allows) {name : Label} {a index : Nat} {count : Int}
    (ha : I.address h a) (hroom : I.simulation.room h a a count) (hlt : (index : Int) < count)
    (hv : I.value h v) :
    I.simulation.Agrees h (changeHeap fun heap => Heap.fill heap name a index v)
      (changeHeap fun heap => Heap.fill heap name a index v) any := by
  refine Agrees.imp (agrees_of_leaves (P := fun _ _ => True) fun m hg hm => ?_)
    fun _ _ _ _ => trivial
  obtain ⟨-, x, hx, hcount⟩ := I.simulation.room_later hg hroom
  simp only [changeHeap]
  rw [on_bind, on_get]
  simp only
  rw [on_bind]
  cases hw : Heap.fill m.heap name a index v with
  | ok heap' =>
    obtain ⟨htag, i, j, x', hput, rfl⟩ := Heap.fill_ok hx hw
    refine .ok (Heap.Grows.set hx hput) ?_ trivial
    exact K.holds_put hm (I.address_grows hg ha) hx (value_grows hg hv) (.inl htag) hput
  | error f =>
    refine .fault (Heap.Grows.refl _) hm ?_
    exact A.fill hm.heap (I.address_grows hg ha) hx (by omega) (Heap.fill_error hx hw)

theorem agrees_allocateArray (K : I.Kept) (A : I.Allows) {name : Label} {elem : Tag}
    {extents : List Int} {init : Option (List Node)}
    (hs : I.statement (.arrayDecl name elem extents init)) :
    I.simulation.Agrees h (allocateArray elem extents) (allocateArray elem extents)
      (diagonal I.address) := by
  refine agrees_of_leaves fun m _ hm => ?_
  simp only [allocateArray]
  rw [on_bind]
  cases hx : ArrayObject.allocate elem extents with
  | error f => exact .fault (Heap.Grows.refl _) hm (A.allocate hs hx)
  | ok x =>
    obtain ⟨hheap, haddress⟩ := K.push hm.heap hs hx
    refine .ok (Heap.Grows.push m.heap x) ⟨hheap, hm.scope.imp fun u _ hu => ?_⟩ haddress
    exact ⟨hu.1, value_grows (Heap.Grows.push m.heap x) hu.2⟩

theorem agrees_checkRoom (A : I.Allows) {name : Label} {a : Nat} {count : Int} :
    I.simulation.Agrees h (checkRoom name a count) (checkRoom name a count)
      (fun h _ _ => I.simulation.room h a a count) := by
  refine Agrees.imp (agrees_of_leaves
    (P := fun h _ => ∃ x, h[a]? = some x ∧ count ≤ x.capacity) fun m _ hm => ?_)
    fun _ _ _ hab => ⟨rfl, hab.2⟩
  simp only [checkRoom]
  rw [on_bind, on_get]
  simp only
  rw [on_bind]
  cases hfind : Heap.find m.heap name (.array a) with
  | error f => exact .fault (Heap.Grows.refl _) hm (A.language (Heap.find_error hfind))
  | ok p =>
    obtain ⟨ha, hx⟩ := Heap.find_ok hfind
    cases ha
    simp only [on_lift_ok]
    cases hcheck : p.2.checkCapacity name count with
    | ok u => exact .ok (Heap.Grows.refl _) hm ⟨p.2, hx, ArrayObject.checkCapacity_ok hcheck⟩
    | error f =>
      refine .fault (Heap.Grows.refl _) hm ?_
      rcases ArrayObject.checkCapacity_error hcheck with hf | rfl
      · exact A.language hf
      · exact A.tooLong _

end Actions

/-! ## Every run keeps the invariant -/

theorem Kept.primitive (K : I.Kept) (A : I.Allows) : I.simulation.Primitive where
  expression_parts := K.expression_parts
  statement_expressions := K.statement_expressions
  statement_parts := K.statement_parts
  routine_body := K.routine_body
  declared := K.declared
  scalar hv := ⟨rfl, value_of_isScalar hv⟩
  builtin _ _ := ⟨rfl, trivial⟩
  callable := by
    rintro h v _ ⟨rfl, hv⟩
    cases v with
    | routine id r => exact .inl ⟨id, id, r, rfl, rfl, hv⟩
    | builtin id b => exact .inr (.inl ⟨id, id, b, rfl, rfl⟩)
    | _ => exact .inr (.inr ⟨rfl, rfl⟩)
  hasTag := by
    rintro h v _ tag ⟨rfl, -⟩
    rfl
  bool hv := hv.1.symm
  language hf _ := ⟨rfl, A.language hf⟩
  notBoolean := by
    rintro h construct actual shown v _ ⟨rfl, -⟩
    exact ⟨rfl, A.language rfl⟩
  notExpression hn hkind := ⟨rfl, A.notExpression hn hkind⟩
  notStatement hn hkind := ⟨rfl, A.notStatement hn hkind⟩
  literal hn hf := ⟨rfl, A.literal hn hf⟩
  label hn hname hf := ⟨rfl, A.label hn hname hf⟩
  params hr hf := ⟨rfl, A.params hr hf⟩
  scope_values hs := hs.2
  scope_set := by
    rintro h s _ v _ name ⟨rfl, hs⟩ ⟨rfl, hv⟩
    exact ⟨rfl, hs.set name ⟨rfl, hv⟩⟩
  scope_start := by
    intro h params args args' s s' hargs hs hs'
    obtain ⟨rfl, -⟩ := values_iff.1 hargs
    obtain ⟨f, -, hf, -⟩ | ⟨s₁, s₂, hs₁, hs₂, hrel⟩ := Scope.ofArguments_related params hargs
    · rw [hs] at hf
      cases hf
    · rw [hs] at hs₁ hs₂ hs'
      cases hs'
      cases hs₁
      cases hs₂
      exact ⟨rfl, hrel⟩
  scope := by
    rintro h m _ ⟨rfl, rfl, hm⟩
    exact ⟨rfl, hm.scope⟩
  withScope := by
    rintro h m _ scope _ ⟨rfl, rfl, hm⟩ ⟨rfl, hscope⟩
    exact ⟨rfl, rfl, hm.heap, hscope⟩
  openCall := by
    rintro h m _ name ⟨rfl, rfl, hm⟩
    exact ⟨rfl, rfl, hm.heap, hm.scope⟩
  closeCall := by
    rintro h m _ ⟨rfl, rfl, hm⟩
    exact ⟨rfl, rfl, hm.heap, hm.scope⟩
  print := by
    rintro h m _ line ⟨rfl, rfl, hm⟩
    exact ⟨rfl, rfl, hm.heap, hm.scope⟩
  plainText := by
    rintro h v _ ⟨rfl, hv⟩
    exact agrees_plainText A hv
  typeName := by
    rintro h v _ ⟨rfl, -⟩
    exact agrees_typeName A _
  newId := by
    refine Agrees.imp (agrees_of_leaves (P := fun _ _ => True) fun m _ hm => ?_) ?_
    · exact .ok (Heap.Grows.refl _) ⟨hm.heap, hm.scope⟩ trivial
    · rintro h id _ ⟨rfl, -⟩ r hr
      exact ⟨rfl, hr⟩
  operate := by
    rintro h cls op left right a _ b _ - ⟨rfl, ha⟩ ⟨rfl, hb⟩
    exact agrees_operate A ha hb
  readElement := by
    rintro h name indices t _ is is' hn ⟨rfl, ht⟩ his hlen
    obtain ⟨rfl, -⟩ := values_iff.1 his
    refine agrees_readElement K A ht ?_
    rintro rfl h'
    obtain rfl : indices = [] := List.length_eq_zero_iff.1 hlen.symm
    exact A.noIndex hn
  allocateArray hn := (agrees_allocateArray K A hn).imp fun _ _ _ hab => ⟨by rw [hab.1], hab.2⟩
  checkRoom := by
    rintro h name a _ count ⟨ha, -⟩
    cases ha
    exact agrees_checkRoom A
  fill := by
    rintro h name a _ count v _ index ⟨ha, haddress⟩ hroom hlt ⟨rfl, hv⟩
    cases ha
    exact agrees_fill K A haddress hroom hlt hv
  write := by
    rintro h name indices value t _ is is' v _ hn ⟨rfl, ht⟩ his hlen ⟨rfl, hv⟩
    obtain ⟨rfl, -⟩ := values_iff.1 his
    refine agrees_write K A hn ht hv ?_
    rintro rfl h'
    obtain rfl : indices = [] := List.length_eq_zero_iff.1 hlen.symm
    exact A.noIndexToStore hn
  record := agrees_tells A

/-- Running statements keeps the invariant. -/
theorem Kept.run (K : I.Kept) (A : I.Allows) (fuel : Nat) {body : List Node} {m : Machine}
    (hbody : ∀ n ∈ body, I.statement n) (hm : I.Holds m) :
    I.Leaves m.heap (fun _ _ => True) ((executeAll fuel body).on m) :=
  leaves_of_agrees (((K.primitive A).lawful.agrees (.inl rfl)).executeAll hbody) hm
    fun _ _ _ _ => trivial

/-- What is traced is no part of the invariant. -/
theorem Holds.startRun {m : Machine} (hm : I.Holds m) : I.Holds (startRun.on m).2 := by
  obtain ⟨traced, tracing, runs, hstart⟩ := exists_on_startRun m
  rw [hstart]
  exact ⟨hm.heap, hm.scope⟩

/-- Running a program keeps the invariant. -/
theorem Kept.runProgram (K : I.Kept) (A : I.Allows) (fuel : Nat) {program : Node} {m : Machine}
    (hprogram : ∀ body, programBody program = .ok body → ∀ n ∈ body, I.statement n)
    (hm : I.Holds m) : I.Holds ((runProgram fuel program).on m).2 := by
  rw [on_runProgram_runBody]
  -- whether events are recorded is no part of the invariant either
  suffices hbody : I.Holds ((runBody fuel program).on (MiniAlgol.startRun.on m).2).2 from
    ⟨hbody.heap, hbody.scope⟩
  rw [runBody, on_bind]
  cases hlist : programBody program with
  | error f => exact hm.startRun
  | ok body => exact (K.run A fuel (hprogram body hlist) hm.startRun).holds

/-- Calling what a name stands for keeps the invariant, and the result is a value that the run may
hold. -/
theorem Kept.call (K : I.Kept) (A : I.Allows) (fuel : Nat) {name : Label} {args : List Value}
    {callee : Option Value} {m : Machine} (hcallee : ∀ v ∈ callee, I.value m.heap v)
    (hargs : ∀ v ∈ args, I.value m.heap v) (hm : I.Holds m) :
    I.Leaves m.heap I.value ((callValue fuel name args callee).on m) := by
  have hrel : I.simulation.optionalValue m.heap callee callee := by
    cases callee with
    | none => exact .none
    | some v => exact .some ⟨rfl, hcallee v rfl⟩
  have hruns : I.simulation.AgreesAt fuel fuel := (K.primitive A).lawful.agrees (.inl rfl)
  have hagrees := callValue_agrees (K.primitive A).lawful hruns name hrel
    (values_iff.2 ⟨rfl, hargs⟩)
  exact leaves_of_agrees hagrees hm fun _ _ _ hab => hab.2

end Invariant

end MiniAlgol
