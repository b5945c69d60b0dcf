import MiniAlgol.Proofs.Heap.Likeness
import MiniAlgol.Proofs.Run.Primitives

/-!
# Runs in step

Two runs from machines that share some arrays and routines go in step (`Beginning.InStep`): they
print the same, end the same way and leave the same in what they share.

Arrays and routines that the runs make get different identities in the two machines. They
correspond in the order in which they are made (`Pairing`), so the number of those made so far is
the world of the simulation.
-/

namespace MiniAlgol

open MiniAlgol.Action Simulation

/-! ## Identities of two runs -/

/-- How the identities of two runs correspond: those that are kept from before stand for
themselves, and the new ones, which start at `first` and `second`, come in one order. -/
structure Pairing where
  kept : Nat → Prop
  first : Nat
  second : Nat
  kept_lt : ∀ {a}, kept a → a < first ∧ a < second

namespace Pairing

variable {p : Pairing} {count count' a b a' b' : Nat}

/-- Two identities that correspond, when so many are new. -/
def Pairs (p : Pairing) (count a b : Nat) : Prop :=
  p.kept a ∧ a = b ∨ ∃ k < count, a = p.first + k ∧ b = p.second + k

theorem Pairs.mono (hcount : count ≤ count') (h : p.Pairs count a b) : p.Pairs count' a b :=
  h.imp_right fun ⟨k, hk, hab⟩ => ⟨k, hk.trans_le hcount, hab⟩

theorem pairs_new : p.Pairs (count + 1) (p.first + count) (p.second + count) :=
  .inr ⟨count, Nat.lt_succ_self count, rfl, rfl⟩

theorem Pairs.eq_iff (h : p.Pairs count a b) (h' : p.Pairs count a' b') : a = a' ↔ b = b' := by
  rcases h with ⟨hkept, rfl⟩ | ⟨k, -, rfl, rfl⟩
  · have hlt := p.kept_lt hkept
    rcases h' with ⟨-, rfl⟩ | ⟨k', -, rfl, rfl⟩
    · exact Iff.rfl
    · omega
  · rcases h' with ⟨hkept', rfl⟩ | ⟨k', -, rfl, rfl⟩
    · have hlt := p.kept_lt hkept'
      omega
    · omega

/-- One more identity pairs the two next ones and nothing else. -/
theorem Pairs.of_succ (h : p.Pairs (count + 1) a b) :
    p.Pairs count a b ∨ a = p.first + count ∧ b = p.second + count := by
  rcases h with h | ⟨k, hk, rfl, rfl⟩
  · exact .inl (.inl h)
  · rcases Nat.lt_or_eq_of_le (Nat.le_of_lt_succ hk) with hk | rfl
    · exact .inl (.inr ⟨k, hk, rfl, rfl⟩)
    · exact .inr ⟨rfl, rfl⟩

end Pairing

/-- What two runs start from. -/
structure Beginning where
  arrays : Pairing
  routines : Pairing
  printed : List String
  printed' : List String

/-- How many arrays and routines two runs have made. -/
structure Made where
  arrays : Nat
  routines : Nat

namespace Beginning

variable {s : Beginning} {w w' : Made} {α β : Type}

/-- The identities that correspond in two runs so far. -/
def matching (s : Beginning) (w : Made) : Matching where
  array := s.arrays.Pairs w.arrays
  routine := s.routines.Pairs w.routines
  array_iff := Pairing.Pairs.eq_iff
  routine_iff := Pairing.Pairs.eq_iff

/-- More arrays and routines were made. -/
def Later (w w' : Made) : Prop :=
  w.arrays ≤ w'.arrays ∧ w.routines ≤ w'.routines

theorem matching_le (hw : Later w w') : (s.matching w).Le (s.matching w') :=
  ⟨Pairing.Pairs.mono hw.1, Pairing.Pairs.mono hw.2⟩

/-- Two machines in step: they have made as much as one another, what corresponds is alike, they
printed the same since the start, and neither traces. -/
structure InStep (s : Beginning) (w : Made) (m n : Machine) : Prop where
  heap : m.heap.Alike (s.matching w) n.heap
  size : m.heap.size = s.arrays.first + w.arrays ∧ n.heap.size = s.arrays.second + w.arrays
  nextId : m.nextId = s.routines.first + w.routines ∧ n.nextId = s.routines.second + w.routines
  scope : Scope.Related (Value.Alike (s.matching w)) m.scope n.scope
  printed : ∃ out, m.printed = out ++ s.printed ∧ n.printed = out ++ s.printed'
  level : m.level ≤ 0 ∧ n.level ≤ 0

/-- The simulation of one run by the other. -/
abbrev simulation (s : Beginning) : Simulation where
  World := Made
  later := Later
  machine := s.InStep
  value w := Value.Alike (s.matching w)
  scope w := Scope.Related (Value.Alike (s.matching w))
  fault w := Fault.Alike (s.matching w)
  room _ _ _ _ := True
  expression _ := True
  statement _ := True
  routine _ := True
  exempt _ := False
  later_refl _ := ⟨le_rfl, le_rfl⟩
  later_trans h h' := ⟨h.1.trans h'.1, h.2.trans h'.2⟩
  value_later hw hv := hv.le (matching_le hw)
  scope_later hw hs := hs.imp fun _ _ hv => hv.le (matching_le hw)
  room_later _ _ := trivial

/-! ## The actions of runs in step -/

section Actions

variable {F : Machine → Except Fault α} {G : Machine → Except Fault β}
  {P : Made → α → β → Prop} {v v' : Value}

/-- Actions that only look at the machine. -/
theorem agrees_look
    (h : ∀ w' m n, Later w w' → s.InStep w' m n →
      EndAlike (Fault.Alike (s.matching w')) (P w') (F m) (G n)) :
    s.simulation.Agrees w (do lift (F (← get))) (do lift (G (← get))) P := by
  intro w' m n hw hm
  rw [on_bind, on_bind, on_get, on_get]
  simp only
  have hends := h w' m n hw hm
  generalize F m = l at hends ⊢
  generalize G n = r at hends ⊢
  cases hends with
  | ok hab => exact .ok (s.simulation.later_refl w') hm hab
  | error hf => exact .error (s.simulation.later_refl w') hm hf

/-- Changing the heaps alike keeps the machines in step. -/
theorem agrees_changeHeap {f g : Heap → Except Fault Heap}
    (h : ∀ w' m n, Later w w' → s.InStep w' m n →
      EndAlike (Fault.Alike (s.matching w'))
        (fun h h' => h.size = m.heap.size ∧ h'.size = n.heap.size ∧ h.Alike (s.matching w') h')
        (f m.heap) (g n.heap)) :
    s.simulation.Agrees w (changeHeap f) (changeHeap g) any := by
  intro w' m n hw hm
  simp only [changeHeap, on_bind, on_get]
  have hends := h w' m n hw hm
  generalize f m.heap = l at hends ⊢
  generalize g n.heap = r at hends ⊢
  cases hends with
  | ok hheaps =>
    obtain ⟨hsize, hsize', halike⟩ := hheaps
    refine .ok (s.simulation.later_refl w') ⟨halike, ?_, hm.nextId, hm.scope, hm.printed,
      hm.level⟩ trivial
    exact ⟨hsize.trans hm.size.1, hsize'.trans hm.size.2⟩
  | error hf => exact .error (s.simulation.later_refl w') hm hf

/-- Nothing is recorded. -/
theorem agrees_record {level : Int} (hlevel : 0 < level)
    (event event' : Heap → Except Fault Event) :
    s.simulation.Agrees w (record level event) (record level event') any := by
  intro w' m n hw hm
  obtain ⟨hm₁, hm₂⟩ := hm.level
  rw [on_record, on_record, if_neg (by omega), if_neg (by omega)]
  exact .ok (s.simulation.later_refl w') hm trivial

/-- The next array of the one run corresponds to the next one of the other. -/
theorem agrees_allocateArray (elem : Tag) (extents : List Int) :
    s.simulation.Agrees w (allocateArray elem extents) (allocateArray elem extents)
      (fun w a a' => Value.Alike (s.matching w) (.array a) (.array a')) := by
  intro w' m n hw hm
  simp only [allocateArray, on_bind]
  cases hx : ArrayObject.allocate elem extents with
  | error f =>
    exact .error (s.simulation.later_refl w') hm (.plain (ArrayObject.allocate_value? hx))
  | ok x =>
    have hlater : Later w' ⟨w'.arrays + 1, w'.routines⟩ := ⟨Nat.le_succ _, le_rfl⟩
    refine .ok hlater ⟨?_, ?_, hm.nextId, ?_, hm.printed, hm.level⟩ ?_
    · refine hm.heap.push (matching_le hlater)
        (fun v hv => ArrayObject.eq_undefined_of_mem_allocate hx hv) fun hab => ?_
      rw [hm.size.1, hm.size.2]
      exact Pairing.Pairs.of_succ hab
    · simp only [Array.size_push, hm.size.1, hm.size.2]
      exact ⟨rfl, rfl⟩
    · exact hm.scope.imp fun _ _ hv => hv.le (matching_le hlater)
    · rw [hm.size.1, hm.size.2]
      exact .array Pairing.pairs_new

theorem agrees_newId :
    s.simulation.Agrees w newId newId
      (fun w i j => ∀ r, True → Value.Alike (s.matching w) (.routine i r) (.routine j r)) := by
  intro w' m n hw hm
  have hlater : Later w' ⟨w'.arrays, w'.routines + 1⟩ := ⟨le_rfl, Nat.le_succ _⟩
  refine .ok hlater ⟨?_, hm.size, ?_, ?_, hm.printed, hm.level⟩ fun r _ => ?_
  · intro a b hab
    obtain ⟨x, x', hx, hx', hlike⟩ := hm.heap hab
    exact ⟨x, x', hx, hx', hlike.imp fun _ _ hv => hv.le (matching_le hlater)⟩
  · exact ⟨by rw [hm.nextId.1]; rfl, by rw [hm.nextId.2]; rfl⟩
  · exact hm.scope.imp fun _ _ hv => hv.le (matching_le hlater)
  · simp only [hm.nextId.1, hm.nextId.2]
    exact .routine r Pairing.pairs_new

theorem agrees_checkRoom {name : Label} {a b : Nat} {count : Int}
    (hab : (s.matching w).array a b) :
    s.simulation.Agrees w (checkRoom name a count) (checkRoom name b count)
      (fun _ _ _ => True) := by
  intro w' m n hw hm
  obtain ⟨x, x', hx, hx', hlike⟩ := hm.heap ((matching_le hw).array hab)
  simp only [checkRoom, on_bind, on_get, Heap.find, hx, hx', on_lift_ok]
  have hcheck : x'.checkCapacity name count = x.checkCapacity name count := by
    simp only [ArrayObject.checkCapacity, hlike.capacity_eq]
  rw [hcheck]
  cases hc : x.checkCapacity name count with
  | ok u => exact .ok (s.simulation.later_refl w') hm trivial
  | error f =>
    exact .error (s.simulation.later_refl w') hm (.plain (ArrayObject.checkCapacity_value? hc))

end Actions

/-! ## Runs in step -/

theorem primitive (s : Beginning) : s.simulation.Primitive where
  expression_parts _ _ _ := trivial
  statement_expressions _ _ _ := trivial
  statement_parts _ _ _ := trivial
  routine_body _ _ _ := trivial
  declared _ := trivial
  scalar hv := .scalar hv
  builtin _ b := .builtin 0 b
  callable := by
    intro w v v' hv
    cases hv with
    | scalar hv =>
      refine .inr (.inr ?_)
      cases v <;> first | exact ⟨rfl, rfl⟩ | cases hv
    | array ha => exact .inr (.inr ⟨rfl, rfl⟩)
    | routine r hi => exact .inl ⟨_, _, r, rfl, rfl, trivial⟩
    | builtin id b => exact .inr (.inl ⟨id, id, b, rfl, rfl⟩)
  hasTag := by
    intro w v v' tag hv
    cases hv <;> rfl
  bool := by
    intro w b v' hv
    cases hv with
    | scalar => rfl
  language _ hf := .plain hf
  notBoolean hv := .notBoolean _ _ _ hv
  notExpression _ _ := .plain rfl
  notStatement _ _ := .plain rfl
  literal _ hf := .plain (value?_of_literalValue hf)
  label _ _ hf := .plain (value?_of_ofLabel hf)
  params := by
    intro w r f _ hf
    obtain ⟨name, -, hname⟩ := exists_of_mapM_error hf
    exact .plain (value?_of_ofLabel hname)
  scope_values hs := hs
  scope_set name hs hv := hs.set name hv
  scope_start := by
    intro w params args args' start start' hargs hs hs'
    obtain ⟨f, -, hf, -⟩ | ⟨s₁, s₂, hs₁, hs₂, hrel⟩ := Scope.ofArguments_related params hargs
    · rw [hs] at hf
      cases hf
    · rw [hs] at hs₁
      rw [hs'] at hs₂
      cases hs₁
      cases hs₂
      exact hrel
  scope hm := hm.scope
  withScope hm hs := ⟨hm.heap, hm.size, hm.nextId, hs, hm.printed, hm.level⟩
  openCall _ hm := ⟨hm.heap, hm.size, hm.nextId, hm.scope, hm.printed, hm.level⟩
  closeCall hm := ⟨hm.heap, hm.size, hm.nextId, hm.scope, hm.printed, hm.level⟩
  print := by
    intro w m n line hm
    obtain ⟨out, hout, hout'⟩ := hm.printed
    refine ⟨hm.heap, hm.size, hm.nextId, hm.scope, ⟨line :: out, ?_, ?_⟩, hm.level⟩
    · rw [hout, List.cons_append]
    · rw [hout', List.cons_append]
  plainText hv :=
    agrees_look fun _ _ _ hw hm => Value.plainText_endAlike hm.heap (hv.le (matching_le hw))
  typeName hv :=
    agrees_look fun _ _ _ hw hm => Value.typeName_endAlike hm.heap (hv.le (matching_le hw))
  newId := agrees_newId
  operate _ ha hb := agrees_look fun _ _ _ hw hm =>
    Value.apply_alike hm.heap (ha.le (matching_le hw)) (hb.le (matching_le hw))
  readElement _ ht his _ := agrees_look fun _ _ _ hw hm =>
    Heap.read_alike hm.heap (ht.le (matching_le hw)) (his.imp fun _ _ hv => hv.le (matching_le hw))
  allocateArray _ := agrees_allocateArray _ _
  checkRoom := by
    intro w name a a' count ha
    cases ha with
    | scalar ha => cases ha
    | array hab => exact agrees_checkRoom hab
  fill := by
    intro w name a a' count v v' index ha _ _ hv
    cases ha with
    | scalar ha => cases ha
    | array hab =>
      refine agrees_changeHeap fun w' m n hw hm => ?_
      exact Heap.fill_alike hm.heap ((matching_le hw).array hab) (hv.le (matching_le hw))
  write _ ht his _ hv := agrees_changeHeap fun _ _ _ hw hm =>
    Heap.write_alike hm.heap (ht.le (matching_le hw))
      (his.imp fun _ _ hv => hv.le (matching_le hw)) (hv.le (matching_le hw))
  record := by
    intro w level event event' ht
    exact agrees_record ht.pos event event'

end Beginning

end MiniAlgol
