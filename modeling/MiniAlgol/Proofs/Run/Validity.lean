import MiniAlgol.Proofs.Run.InStep

/-!
# Machines own what they hold

A run makes up no identity: every array that a machine holds is in its heap, and every routine that
it holds was declared (`executeAll_valid`, `runProgram_valid`). So a machine owns the arguments
that a caller can have (`Machine.Valid.owns`), as independent calls ask.

The proof lets a run go in step with itself, every identity of the start being kept. What is alike
itself is then an identity of the start or a new one.
-/

namespace MiniAlgol

open MiniAlgol.Action Simulation

/-! ## What a machine owns -/

/-- A value among the given ones, or in an array that they reach. -/
def Heap.Mentions (h : Heap) (vs : List Value) (v : Value) : Prop :=
  v ∈ vs ∨ ∃ a x, h.Reaches vs a ∧ h[a]? = some x ∧ v ∈ x.elements

/-- The values are of this machine: the arrays that they reach are in its heap, and the routines
that they mention were declared before. -/
structure Machine.Owns (m : Machine) (vs : List Value) : Prop where
  array : ∀ {a}, m.heap.Reaches vs a → a < m.heap.size
  routine : ∀ {i r}, m.heap.Mentions vs (.routine i r) → i < m.nextId

namespace Machine

variable {m n : Machine} {v : Value}

/-- The identity of a value is one that the machine gave. -/
def Has (m : Machine) : Value → Prop
  | .array a => a < m.heap.size
  | .routine i _ => i < m.nextId
  | _ => True

/-- Arrays and names have values of this machine. -/
structure Valid (m : Machine) : Prop where
  heap : ∀ {a : Nat} {x v}, m.heap[a]? = some x → v ∈ x.elements → m.Has v
  scope : ∀ {key v}, m.scope.get? key = some v → m.Has v

theorem Valid.owns (hm : m.Valid) {vs : List Value} (hvs : ∀ v ∈ vs, m.Has v) : m.Owns vs where
  array ha := by
    refine Heap.Reaches.induction (p := fun a => a < m.heap.size) (fun a ha => hvs _ ha)
      (fun a b _ hab => ?_) ha
    obtain ⟨x, hx, hb⟩ := hab
    exact hm.heap hx hb
  routine := by
    rintro i r (hr | ⟨a, x, -, hx, hr⟩)
    · exact hvs _ hr
    · exact hm.heap hx hr

theorem valid_new (level : Int) : Valid { level := level } where
  heap hx := by cases hx
  scope := by
    intro key v hv
    have hrel := Scope.related_builtins (R := fun u _ => Has { level := level } u)
      (fun b => trivial) key
    rw [show Scope.builtins.get? key = some v from hv] at hrel
    cases hrel with
    | some hv => exact hv

/-! ## A run in step with itself -/

/-- All identities of the machine, to start from. -/
def whole (m : Machine) : Beginning where
  arrays :=
    { kept := (· < m.heap.size)
      first := m.heap.size
      second := m.heap.size
      kept_lt := fun ha => ⟨ha, ha⟩ }
  routines :=
    { kept := (· < m.nextId)
      first := m.nextId
      second := m.nextId
      kept_lt := fun hi => ⟨hi, hi⟩ }
  printed := m.printed
  printed' := m.printed

theorem Has.alike (hv : m.Has v) : v.Alike (m.whole.matching ⟨0, 0⟩) v := by
  cases v with
  | array a => exact .array (.inl ⟨hv, rfl⟩)
  | routine i r => exact .routine r (.inl ⟨hv, rfl⟩)
  | builtin id b => exact .builtin id b
  | _ => exact .scalar rfl

theorem Valid.inStep (hm : m.Valid) (hlevel : m.level ≤ 0) : m.whole.InStep ⟨0, 0⟩ m m where
  heap := by
    rintro a b (⟨ha, rfl⟩ | ⟨k, hk, -⟩)
    · have hx : m.heap[a]? = some m.heap[a] := Array.getElem?_eq_getElem ha
      exact ⟨_, _, hx, hx, ArrayObject.Like.self fun v hv => (hm.heap hx hv).alike⟩
    · exact absurd hk (Nat.not_lt_zero k)
  size := ⟨rfl, rfl⟩
  nextId := ⟨rfl, rfl⟩
  scope := by
    intro key
    cases hv : m.scope.get? key with
    | none => exact .none
    | some v => exact .some (hm.scope hv).alike
  printed := ⟨[], rfl, rfl⟩
  level := ⟨hlevel, hlevel⟩

theorem lt_of_pairs {p : Pairing} {count a b : Nat} (hab : p.Pairs count a b) :
    a < p.first + count := by
  rcases hab with ⟨ha, -⟩ | ⟨k, hk, rfl, -⟩
  · have := (p.kept_lt ha).1
    omega
  · omega

theorem has_of_alike {s : Beginning} {w : Made} {v' : Value} (hstep : s.InStep w m n)
    (hv : v.Alike (s.matching w) v') : m.Has v := by
  cases hv with
  | array hab =>
    show _ < m.heap.size
    rw [hstep.size.1]
    exact lt_of_pairs hab
  | routine r hij =>
    show _ < m.nextId
    rw [hstep.nextId.1]
    exact lt_of_pairs hij
  | scalar hv =>
    cases v with
    | array a => cases hv
    | routine i r => cases hv
    | _ => trivial
  | builtin => trivial

theorem valid_of_inStep {w : Made} (hstep : m.whole.InStep w n n) : n.Valid where
  heap := by
    intro a x v hx hv
    -- every array stands for itself
    have hself : m.whole.arrays.Pairs w.arrays a a := by
      have hlt : a < m.heap.size + w.arrays := by
        have hsize := hstep.size.1
        have := (Array.getElem?_eq_some_iff.1 hx).1
        rw [hsize] at this
        exact this
      rcases Nat.lt_or_ge a m.heap.size with ha | ha
      · exact .inl ⟨ha, rfl⟩
      · have heq : a = m.heap.size + (a - m.heap.size) := by omega
        exact .inr ⟨a - m.heap.size, by omega, heq, heq⟩
    obtain ⟨y, y', hy, hy', hlike⟩ := hstep.heap hself
    rw [hx] at hy hy'
    cases hy
    cases hy'
    obtain ⟨v', hv'⟩ := hlike.exists_of_mem hv
    exact has_of_alike hstep hv'
  scope := by
    intro key v hv
    have hrel := hstep.scope key
    rw [hv] at hrel
    cases hrel with
    | some hv => exact has_of_alike hstep hv

end Machine

/-! ## Runs -/

/-- Running statements without a trace keeps a machine valid, however the run ends. -/
theorem executeAll_valid (fuel : Nat) (body : List Node) {m : Machine} (hm : m.Valid)
    (hlevel : m.level ≤ 0) : ((executeAll fuel body).on m).2.Valid := by
  have hruns : m.whole.simulation.AgreesAt fuel fuel := m.whole.primitive.lawful.agrees (.inl rfl)
  have hagrees : m.whole.simulation.Agrees ⟨0, 0⟩ (executeAll fuel body) (executeAll fuel body)
      any := hruns.executeAll fun _ _ => trivial
  have hends := hagrees ⟨0, 0⟩ m m ⟨le_rfl, le_rfl⟩ (hm.inStep hlevel)
  generalize (executeAll fuel body).on m = r at hends ⊢
  cases hends with
  | exempt hs => exact hs.elim
  | ok _ hstep _ => exact Machine.valid_of_inStep hstep
  | error _ hstep _ => exact Machine.valid_of_inStep hstep

/-- A run on a valid machine that does not trace leaves a valid machine. -/
theorem runProgram_valid (fuel : Nat) {program : Node} {body : List Node} {m : Machine}
    (hbody : programBody program = .ok body) (hm : m.Valid) (hlevel : m.level ≤ 0) :
    ((runProgram fuel program).on m).2.Valid := by
  obtain ⟨traced, tracing, runs, hstart⟩ := exists_on_startRun m
  have hopened : Machine.Valid { m with traced, tracing, runs } := ⟨hm.heap, hm.scope⟩
  have hrun := executeAll_valid fuel body hopened hlevel
  rw [on_runProgram fuel hbody, hstart]
  exact ⟨hrun.heap, hrun.scope⟩

end MiniAlgol
