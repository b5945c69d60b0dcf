import MiniAlgol.Proofs.Run.Induction
import Mathlib

/-!
# Calls in a trace

The lines of a trace that are the starts and ends of calls are brackets. A run that succeeds leaves
them in pairs, and the indentation of every line says how many pairs are around it; a run that stops
leaves the beginning of such a trace (`traced_wellNested`).

A call is recorded once it is open, and its end once it is closed, so the two lines of a pair are
not indented alike. `Nested` is the grammar of traces with that; that what a run adds to the trace
is derived by it is a property that runs inherit from their actions (`inherited_tracesCalls`).
-/

namespace MiniAlgol

open MiniAlgol.Action

/-! ## Well-nested traces -/

/-- Line `i` is the start of a call and line `j` its end: a later line for the same routine,
indented for one call less, with no line between them that is indented for less than the
start. -/
structure Closes (lines : List TraceLine) (i j : Nat) : Prop where
  lt : i < j
  ends : ∃ depth kind name args result, lines[i]? = some ⟨depth + 1, .call kind name args⟩ ∧
    lines[j]? = some ⟨depth, .return name result⟩ ∧
    ∀ k line, i < k → k < j → lines[k]? = some line → depth + 1 ≤ line.depth

/-- The starts and ends of calls are in pairs, and a line outside of all pairs is not indented. -/
structure WellNested (lines : List TraceLine) : Prop where
  starts : ∀ i depth kind name args, lines[i]? = some ⟨depth, .call kind name args⟩ →
    ∃! j, Closes lines i j
  ends : ∀ j depth name result, lines[j]? = some ⟨depth, .return name result⟩ →
    ∃! i, Closes lines i j
  outside : ∀ k line, lines[k]? = some line → (∀ i j, Closes lines i j → k < i ∨ j < k) →
    line.depth = 0

/-- The lines of calls that are closed, and of what happens outside of them, when some calls are
open already. -/
inductive Nested : Nat → List TraceLine → Prop where
  | nil {depth : Nat} : Nested depth []
  | line {depth : Nat} {e : Event} {rest : List TraceLine} (he : e.isOfCall = false)
      (hrest : Nested depth rest) : Nested depth (⟨depth, e⟩ :: rest)
  | call {depth : Nat} {kind name args result : String} {inner rest : List TraceLine}
      (hinner : Nested (depth + 1) inner) (hrest : Nested depth rest) :
      Nested depth
        (⟨depth + 1, .call kind name args⟩ :: (inner ++ ⟨depth, .return name result⟩ :: rest))

section Grammar

variable {depth : Nat} {lines lines' before after inner rest : List TraceLine} {i j k : Nat}
  {line first last : TraceLine}

theorem Nested.append (h : Nested depth lines) (h' : Nested depth lines') :
    Nested depth (lines ++ lines') := by
  induction h with
  | nil => exact h'
  | line he _ ih => exact .line he (ih h')
  | @call depth kind name args result inner rest hinner _ _ ih =>
    rw [List.cons_append, List.append_assoc, List.cons_append]
    exact .call hinner (ih h')

/-- Where a line of a call with its two ends stands. -/
theorem getElem?_call (h : (first :: (inner ++ last :: rest))[k]? = some line) :
    (k = 0 ∧ line = first) ∨ (∃ l, k = 1 + l ∧ inner[l]? = some line) ∨
      (k = inner.length + 1 ∧ line = last) ∨
      ∃ l, k = inner.length + 2 + l ∧ rest[l]? = some line := by
  cases k with
  | zero => exact .inl ⟨rfl, by simpa using h.symm⟩
  | succ k =>
    right
    rw [List.getElem?_cons_succ, List.getElem?_append] at h
    split at h
    · exact .inl ⟨k, by omega, h⟩
    · right
      obtain ⟨l, hl⟩ := Nat.exists_eq_add_of_le (Nat.le_of_not_lt ‹_›)
      rw [hl, Nat.add_sub_cancel_left] at h
      cases l with
      | zero => exact .inl ⟨by omega, by simpa using h.symm⟩
      | succ l => exact .inr ⟨l, by omega, by simpa using h⟩

/-- The two lines of a call in a trace of calls that are closed: a pair within which the starts of
calls are indented for more. -/
structure Pair (lines : List TraceLine) (i j : Nat) : Prop where
  lt : i < j
  ends : ∃ depth kind name args result, lines[i]? = some ⟨depth + 1, .call kind name args⟩ ∧
    lines[j]? = some ⟨depth, .return name result⟩ ∧
    ∀ k line, i < k → k < j → lines[k]? = some line → depth + 1 ≤ line.depth ∧
      ∀ kind name args, line.event = .call kind name args → depth + 1 < line.depth

theorem Pair.closes (h : Pair lines i j) : Closes lines i j := by
  obtain ⟨hlt, depth, kind, name, args, result, hi, hj, hbetween⟩ := h
  exact ⟨hlt, depth, kind, name, args, result, hi, hj,
    fun k line hik hkj hk => (hbetween k line hik hkj hk).1⟩

/-- A pair stays one when lines are added before and after. -/
theorem Pair.within (h : Pair lines i j) (before after : List TraceLine)
    (hwhole : lines' = before ++ (lines ++ after)) :
    Pair lines' (before.length + i) (before.length + j) := by
  obtain ⟨hlt, depth, kind, name, args, result, hi, hj, hbetween⟩ := h
  have hj' := (List.getElem?_eq_some_iff.1 hj).1
  have hget : ∀ {k}, k ≤ j → lines'[before.length + k]? = lines[k]? := by
    intro k hk
    rw [hwhole, List.getElem?_append_right (Nat.le_add_right _ _), Nat.add_sub_cancel_left,
      List.getElem?_append_left (by omega)]
  refine ⟨by omega, depth, kind, name, args, result, ?_, ?_, fun k line hik hkj hk => ?_⟩
  · rw [hget (by omega), hi]
  · rw [hget (Nat.le_refl j), hj]
  · obtain ⟨l, rfl⟩ := Nat.exists_eq_add_of_le (show before.length ≤ k by omega)
    rw [hget (by omega)] at hk
    exact hbetween l line (by omega) (by omega) hk

theorem Closes.eq_of_start (h : Closes lines i j) (h' : Closes lines i k) : j = k := by
  -- the end of the shorter pair would be indented too little for the longer one
  have hshort : ∀ {j k}, Closes lines i j → Closes lines i k → ¬ j < k := by
    rintro j k ⟨hij, depth, _, _, _, _, hi, hj, -⟩ ⟨-, depth', _, _, _, _, hi', -, hbetween⟩ hjk
    rw [hi] at hi'
    cases hi'
    have := hbetween j _ hij hjk hj
    simp only at this
    omega
  rcases Nat.lt_trichotomy j k with hjk | hjk | hjk
  · exact absurd hjk (hshort h h')
  · exact hjk
  · exact absurd hjk (hshort h' h)

/-- No line is indented for fewer calls than are open, and the start of a call for more. -/
theorem Nested.le_depth (h : Nested depth lines) (hmem : line ∈ lines) :
    depth ≤ line.depth ∧
      ∀ kind name args, line.event = .call kind name args → depth < line.depth := by
  induction h with
  | nil => cases hmem
  | line he _ ih =>
    rcases List.mem_cons.1 hmem with rfl | hmem
    · refine ⟨Nat.le_refl _, fun kind name args hcall => ?_⟩
      simp only at hcall
      rw [hcall] at he
      cases he
    · exact ih hmem
  | call _ _ ihinner ihrest =>
    rcases List.mem_cons.1 hmem with rfl | hmem
    · exact ⟨Nat.le_succ _, fun _ _ _ _ => Nat.lt_succ_self _⟩
    · rcases List.mem_append.1 hmem with hmem | hmem
      · have := ihinner hmem
        exact ⟨by omega, fun _ _ _ _ => by omega⟩
      · rcases List.mem_cons.1 hmem with rfl | hmem
        · exact ⟨Nat.le_refl _, fun _ _ _ hcall => by cases hcall⟩
        · exact ihrest hmem

/-- A call with its two ends is a pair. -/
theorem Nested.pair (hinner : Nested (depth + 1) inner) (kind name args result : String)
    (rest : List TraceLine) :
    Pair (⟨depth + 1, .call kind name args⟩ :: (inner ++ ⟨depth, .return name result⟩ :: rest))
      0 (inner.length + 1) := by
  refine ⟨by omega, depth, kind, name, args, result, rfl, ?_, fun k line hk hlt hline => ?_⟩
  · rw [List.getElem?_cons_succ, List.getElem?_append_right (Nat.le_refl _), Nat.sub_self]
    rfl
  · rcases getElem?_call hline with ⟨rfl, -⟩ | ⟨l, -, hl⟩ | ⟨rfl, -⟩ | ⟨l, rfl, -⟩
    · omega
    · exact hinner.le_depth (List.mem_of_getElem? hl)
    · omega
    · omega

/-- Every line is outside of all calls, or in a pair, of which it is an end if it is the start or
the end of a call. -/
theorem Nested.exists_pair (h : Nested depth lines) (hk : lines[k]? = some line) :
    line.depth = depth ∧ line.event.isOfCall = false ∨
      ∃ i j, Pair lines i j ∧ i ≤ k ∧ k ≤ j ∧ (line.event.isOfCall → k = i ∨ k = j) := by
  induction h generalizing k with
  | nil => simp at hk
  | @line depth e rest he hrest ih =>
    cases k with
    | zero =>
      cases hk
      exact .inl ⟨rfl, he⟩
    | succ k =>
      refine (ih (by simpa using hk)).imp_right ?_
      rintro ⟨i, j, hpair, hik, hkj, hend⟩
      have hwithin : Pair (⟨depth, e⟩ :: rest) (1 + i) (1 + j) :=
        hpair.within [⟨depth, e⟩] [] (by simp)
      refine ⟨1 + i, 1 + j, hwithin, by omega, by omega, fun hcall => ?_⟩
      have := hend hcall
      omega
  | @call depth kind name args result inner rest hinner hrest ihinner ihrest =>
    have houter := hinner.pair kind name args result rest
    rcases getElem?_call hk with ⟨rfl, rfl⟩ | ⟨l, rfl, hl⟩ | ⟨rfl, rfl⟩ | ⟨l, rfl, hl⟩
    · exact .inr ⟨0, _, houter, Nat.le_refl _, Nat.zero_le _, fun _ => .inl rfl⟩
    · right
      rcases ihinner hl with ⟨-, hplain⟩ | ⟨i, j, hpair, hil, hlj, hend⟩
      · have hlt := (List.getElem?_eq_some_iff.1 hl).1
        refine ⟨0, _, houter, Nat.zero_le _, by omega, fun hcall => ?_⟩
        rw [hplain] at hcall
        cases hcall
      · refine ⟨1 + i, 1 + j, hpair.within [_] (_ :: rest) rfl, by omega, by omega, fun hcall => ?_⟩
        have := hend hcall
        omega
    · exact .inr ⟨0, _, houter, Nat.zero_le _, Nat.le_refl _, fun _ => .inr rfl⟩
    · refine (ihrest hl).imp_right ?_
      rintro ⟨i, j, hpair, hil, hlj, hend⟩
      have hwhole :
          ⟨depth + 1, .call kind name args⟩ :: (inner ++ ⟨depth, .return name result⟩ :: rest)
          = (⟨depth + 1, .call kind name args⟩ :: (inner ++ [⟨depth, .return name result⟩]))
            ++ (rest ++ []) := by simp
      have hwithin := hpair.within _ _ hwhole
      simp only [List.length_cons, List.length_append, List.length_nil] at hwithin
      refine ⟨_, _, hwithin, by omega, by omega, fun hcall => ?_⟩
      have := hend hcall
      omega

/-- No two calls end with one line. -/
theorem Nested.eq_of_end (h : Nested depth lines) (hi : Closes lines i j) (hk : Closes lines k j) :
    i = k := by
  -- the later start would be indented too little for the pair of the earlier one
  have hearlier : ∀ {i k}, Closes lines i j → Closes lines k j → ¬ i < k := by
    rintro i k hi ⟨hkj, depth, _, _, _, _, hstart, hj, -⟩ hik
    have hcall := hi.ends
    obtain ⟨depth', kind, name, args, result, hi', hj', -⟩ := hcall
    rw [hj] at hj'
    cases hj'
    rcases h.exists_pair hi' with ⟨-, hplain⟩ | ⟨i', j', hpair, -, -, hend⟩
    · cases hplain
    · have hends := hpair.ends
      obtain ⟨_, _, _, _, _, hi'', hj'', hbetween⟩ := hends
      rcases hend rfl with rfl | rfl
      · obtain rfl := hi.eq_of_start hpair.closes
        rw [hi'] at hi''
        cases hi''
        have := (hbetween k _ hik hkj hstart).2 _ _ _ rfl
        simp only at this
        omega
      · rw [hi'] at hj''
        cases hj''
  rcases Nat.lt_trichotomy i k with hik | hik | hik
  · exact absurd hik (hearlier hi hk)
  · exact hik
  · exact absurd hik (hearlier hk hi)

/-- Where calls are closed, the starts and ends of calls are in pairs. -/
theorem Nested.wellNested (h : Nested 0 lines) : WellNested lines where
  starts i depth kind name args hi := by
    rcases h.exists_pair hi with ⟨-, hplain⟩ | ⟨i', j, hpair, -, -, hend⟩
    · cases hplain
    · have hends := hpair.ends
      obtain ⟨_, _, _, _, _, -, hj, -⟩ := hends
      rcases hend rfl with rfl | rfl
      · exact ⟨j, hpair.closes, fun k hk => hk.eq_of_start hpair.closes⟩
      · rw [hi] at hj
        cases hj
  ends j depth name result hj := by
    rcases h.exists_pair hj with ⟨-, hplain⟩ | ⟨i, j', hpair, -, -, hend⟩
    · cases hplain
    · have hends := hpair.ends
      obtain ⟨_, _, _, _, _, hi, -⟩ := hends
      rcases hend rfl with rfl | rfl
      · rw [hj] at hi
        cases hi
      · exact ⟨i, hpair.closes, fun k hk => h.eq_of_end hk hpair.closes⟩
  outside k line hk houtside := by
    rcases h.exists_pair hk with ⟨hdepth, -⟩ | ⟨i, j, hpair, hik, hkj, -⟩
    · exact hdepth
    · rcases houtside i j hpair.closes with hlt | hlt <;> omega

end Grammar

/-! ## What runs add to a trace -/

/-- The machine traces at this level, with these calls open and these lines so far, the last one
first. -/
structure Tracing (level : Int) (calls : List Label) (lines : List TraceLine) (m : Machine) :
    Prop where
  level_eq : m.level = level
  calls_eq : m.calls = calls
  tracing : m.tracing = true
  traced : m.traced = some lines

/-- What was added to the lines is of calls that are closed, or the beginning of that when the
action stopped. -/
inductive AddsCalls {α : Type} (level : Int) (calls : List Label) (lines : List TraceLine) :
    Except Stop α × Machine → Prop where
  | closed {a : α} {m : Machine} (new : List TraceLine)
      (hm : Tracing level calls (new ++ lines) m) (hnew : Nested calls.length new.reverse) :
      AddsCalls level calls lines (.ok a, m)
  | stopped {s : Stop} {m : Machine} (new rest : List TraceLine)
      (htraced : m.traced = some (new ++ lines))
      (hnew : Nested calls.length (new.reverse ++ rest)) : AddsCalls level calls lines (.error s, m)

/-- The action traces calls that are closed. -/
def TracesCalls {α : Type} (x : Action α) : Prop :=
  ∀ {level calls lines m}, 1 ≤ level → Tracing level calls lines m →
    AddsCalls level calls lines (x.on m)

section Rules

variable {α β : Type} {level : Int} {calls : List Label} {lines : List TraceLine} {m : Machine}

/-- Nothing is added. -/
theorem Tracing.closed (hm : Tracing level calls lines m) (a : α) :
    AddsCalls level calls lines (.ok a, m) :=
  .closed [] hm .nil

theorem Tracing.stopped (hm : Tracing level calls lines m) (s : Stop) :
    AddsCalls (α := α) level calls lines (.error s, m) :=
  .stopped [] [] hm.traced .nil

/-- An action adds its lines to those that were added before it. -/
theorem AddsCalls.bind {x : Action α} {f : α → Action β} (hlevel : 1 ≤ level)
    (hx : AddsCalls level calls lines (x.on m)) (hf : ∀ a, TracesCalls (f a)) :
    AddsCalls level calls lines ((x >>= f).on m) := by
  rw [on_bind]
  generalize x.on m = r at hx ⊢
  cases hx with
  | stopped new rest htraced hnew => exact .stopped new rest htraced hnew
  | @closed a m' new hm hnew =>
    simp only
    have hrest := hf a hlevel hm
    generalize (f a).on m' = r' at hrest ⊢
    cases hrest with
    | @closed b m'' new' hm' hnew' =>
      rw [← List.append_assoc] at hm'
      refine .closed _ hm' ?_
      rw [List.reverse_append]
      exact hnew.append hnew'
    | @stopped s m'' new' rest htraced hnew' =>
      rw [← List.append_assoc] at htraced
      refine .stopped _ rest htraced ?_
      rw [List.reverse_append, List.append_assoc]
      exact hnew.append hnew'

theorem tracesCalls_bind {x : Action α} {f : α → Action β} (hx : TracesCalls x)
    (hf : ∀ a, TracesCalls (f a)) : TracesCalls (x >>= f) :=
  fun hlevel hm => (hx hlevel hm).bind hlevel hf

theorem tracesCalls_pure (a : α) : TracesCalls (pure a : Action α) :=
  fun _ hm => hm.closed a

theorem tracesCalls_throw (s : Stop) : TracesCalls (throw s : Action α) :=
  fun _ hm => hm.stopped s

theorem tracesCalls_lift (r : Except Fault α) : TracesCalls (lift r) := by
  cases r with
  | ok a => exact tracesCalls_pure a
  | error f => exact tracesCalls_throw (.fault f)

/-- What an action does beside the trace and the open calls is all one. -/
theorem tracesCalls_modify {f : Machine → Machine}
    (hf : ∀ m, ∃ scope heap nextId printed,
      f m = { m with scope, heap, nextId, printed }) : TracesCalls (modify f) := by
  intro level calls lines m _ hm
  obtain ⟨scope, heap, nextId, printed, hfm⟩ := hf m
  rw [on_modify, hfm]
  exact .closed [] ⟨hm.level_eq, hm.calls_eq, hm.tracing, hm.traced⟩ .nil

/-- A record at a level of the trace adds a line for its event, or its event has no text. -/
theorem Tracing.record (hm : Tracing level calls lines m) {least : Int} (hleast : least ≤ level)
    (event : Heap → Except Fault Event) :
    (∃ e m', event m.heap = .ok e ∧ (Action.record least event).on m = (.ok (), m') ∧
        Tracing level calls (⟨calls.length, e⟩ :: lines) m') ∨
      ∃ f, (Action.record least event).on m = (.error (.fault f), m) := by
  rw [on_record, hm.level_eq, if_pos hleast]
  cases event m.heap with
  | error f => exact .inr ⟨f, rfl⟩
  | ok e =>
    refine .inl ⟨e, _, rfl, rfl, ?_⟩
    rw [Machine.note, if_pos hm.tracing, hm.traced, Machine.depth]
    exact ⟨hm.level_eq, hm.calls_eq, hm.tracing, by rw [← hm.calls_eq]; rfl⟩

theorem tracesCalls_record {least : Int} {event : Heap → Except Fault Event}
    (hinner : Inner event) : TracesCalls (record least event) := by
  intro level calls lines m _ hm
  by_cases hleast : least ≤ level
  · rcases hm.record hleast event with ⟨e, m', he, hrecord, hm'⟩ | ⟨f, hrecord⟩
    · rw [hrecord]
      exact .closed [_] hm' (.line (hinner m.heap e he) .nil)
    · rw [hrecord]
      exact hm.stopped _
  · rw [on_record, hm.level_eq, if_neg hleast]
    exact hm.closed ()

/-! ## Calls -/

/-- The body of a call closes it and adds its lines to that of the start. -/
theorem addsCalls_inCall {start : Scope} {x : Action Unit} (hx : TracesCalls x) {name : Label}
    (hlevel : 1 ≤ level) (hm : Tracing level (name :: calls) lines m) :
    (∃ entry m' new, (inCall start x).on m = (.ok entry, m') ∧
        Tracing level calls (new ++ lines) m' ∧ Nested (calls.length + 1) new.reverse) ∨
      ∃ s m' new rest, (inCall start x).on m = (.error s, m') ∧
        m'.traced = some (new ++ lines) ∧ Nested (calls.length + 1) (new.reverse ++ rest) := by
  have hbody := hx (m := { m with scope := start }) hlevel
    ⟨hm.level_eq, hm.calls_eq, hm.tracing, hm.traced⟩
  rw [on_inCall]
  generalize x.on { m with scope := start } = r at hbody ⊢
  cases hbody with
  | closed _ hm' hnew =>
    refine .inl ⟨_, _, _, rfl, ⟨hm'.level_eq, ?_, hm'.tracing, hm'.traced⟩, hnew⟩
    simp only [hm'.calls_eq, List.tail_cons]
  | stopped _ _ htraced hnew => exact .inr ⟨_, _, _, _, rfl, htraced, hnew⟩

/-- The line of the end of a call closes it. -/
theorem nested_ended {depth : Nat} {new : List TraceLine} (hnew : Nested (depth + 1) new.reverse)
    (kind name args result : String) :
    Nested depth
      (⟨depth, .return name result⟩ :: (new ++ [⟨depth + 1, .call kind name args⟩])).reverse := by
  have hcall : Nested depth
      (⟨depth + 1, .call kind name args⟩ :: (new.reverse ++ [⟨depth, .return name result⟩])) :=
    .call hnew .nil
  simpa using hcall

/-- A call that stopped is the beginning of one that ends. -/
theorem nested_started {depth : Nat} {new : List TraceLine} (rest : List TraceLine)
    (hnew : Nested (depth + 1) (new.reverse ++ rest)) (kind name args : String) :
    ∃ rest', Nested depth
      ((new ++ [TraceLine.mk (depth + 1) (.call kind name args)]).reverse ++ rest') := by
  have hcall : Nested depth
      (⟨depth + 1, .call kind name args⟩ :: (new.reverse ++ rest ++ [⟨depth, .return name ""⟩])) :=
    .call hnew .nil
  exact ⟨rest ++ [⟨depth, .return name ""⟩], by simpa using hcall⟩

theorem tracesCalls_activate {r : Routine} {args : List Value} {x : Action Unit}
    (hx : TracesCalls x) : TracesCalls (activate r args x) := by
  refine tracesCalls_bind (tracesCalls_lift _) fun start => ?_
  intro level calls lines m hlevel hm
  have hopened : Tracing level (r.name :: calls) lines { m with calls := r.name :: m.calls } :=
    ⟨hm.level_eq, by simp only [hm.calls_eq], hm.tracing, hm.traced⟩
  rw [on_bind, openCall, on_modify]
  simp only
  rw [on_bind]
  rcases hopened.record hlevel fun heap =>
      return .call r.kind r.name.shown (", ".intercalate (← args.mapM (Value.listing heap)))
    with ⟨e, m₁, he, hrecord, hstarted⟩ | ⟨f, hrecord⟩
  · obtain ⟨shown, -, he⟩ := bind_ok he
    cases he
    rw [hrecord]
    simp only
    rw [on_bind]
    rcases addsCalls_inCall hx hlevel hstarted with
      ⟨entry, m₂, new, hcall, hended, hnew⟩ | ⟨s, m₂, new, rest, hcall, htraced, hnew⟩
    · rw [hcall]
      simp only
      rw [on_bind]
      rw [List.append_cons] at hended
      rcases hended.record hlevel fun heap =>
          return .return r.name.shown (← ((entry.2.get? (.word Scope.resultWord)).getD
            .undefined).listing heap)
        with ⟨e, m₃, he, hrecord, hreturned⟩ | ⟨f, hrecord⟩
      · obtain ⟨shown', -, he⟩ := bind_ok he
        cases he
        rw [hrecord]
        exact .closed _ hreturned (nested_ended hnew _ _ _ _)
      · rw [hrecord]
        obtain ⟨rest, hrest⟩ := nested_started [] (by simpa using hnew) r.kind
          r.name.shown (", ".intercalate shown)
        exact .stopped _ rest hended.traced hrest
    · rw [hcall]
      rw [List.append_cons] at htraced
      obtain ⟨rest, hrest⟩ := nested_started rest hnew r.kind r.name.shown (", ".intercalate shown)
      exact .stopped _ _ htraced hrest
  · rw [hrecord]
    exact .stopped [] [] hm.traced .nil

theorem inherited_tracesCalls : Inherited TracesCalls where
  pure := tracesCalls_pure
  fail f := tracesCalls_throw (.fault f)
  outOfFuel := tracesCalls_throw .outOfFuel
  bind := tracesCalls_bind
  look _ := tracesCalls_bind (fun _ hm => hm.closed _) fun _ => tracesCalls_lift _
  bindName _ _ := tracesCalls_bind (tracesCalls_lift _) fun _ =>
    tracesCalls_modify fun _ => ⟨_, _, _, _, rfl⟩
  print _ := tracesCalls_modify fun _ => ⟨_, _, _, _, rfl⟩
  newId _ hm := .closed [] ⟨hm.level_eq, hm.calls_eq, hm.tracing, hm.traced⟩ .nil
  allocate _ _ _ _ _ _ hm :=
    .closed [] ⟨hm.level_eq, hm.calls_eq, hm.tracing, hm.traced⟩ .nil
  changeHeap _ := tracesCalls_bind (fun _ hm => hm.closed _) fun _ =>
    tracesCalls_bind (tracesCalls_lift _) fun _ => tracesCalls_modify fun _ => ⟨_, _, _, _, rfl⟩
  record _ := tracesCalls_record
  activate := tracesCalls_activate

end Rules

/-! ## Programs -/

/-- On a fresh machine that traces calls, the trace of a program that succeeds is well nested, and
that of one that stops is the beginning of a trace that is. -/
theorem traced_wellNested (fuel : Nat) (program : Node) {level : Int} (hlevel : 1 ≤ level) :
    ∃ lines, ((runProgram fuel program).on { level }).2.traced = some lines.reverse ∧
      (((runProgram fuel program).on { level }).1 = .ok () → WellNested lines) ∧
      ∀ s, ((runProgram fuel program).on { level }).1 = .error s →
        ∃ rest, WellNested (lines ++ rest) := by
  have hstart : Tracing level [] [] (startRun.on { level }).2 := by
    rw [startRun, on_modify]
    simp only
    rw [if_pos (by omega : 0 < level)]
    exact ⟨rfl, rfl, rfl, rfl⟩
  have hbody : AddsCalls level [] [] ((runBody fuel program).on (startRun.on { level }).2) :=
    tracesCalls_bind (tracesCalls_lift _) (inherited_tracesCalls.runs fuel).executeAll hlevel hstart
  rw [on_runProgram_runBody]
  generalize (runBody fuel program).on (startRun.on { level }).2 = r at hbody ⊢
  cases hbody with
  | @closed _ m new hm hnew =>
    refine ⟨new.reverse, ?_, fun _ => hnew.wellNested, fun s hs => ?_⟩
    · rw [List.reverse_reverse, ← List.append_nil new]
      exact hm.traced
    · cases hs
  | @stopped _ m new rest htraced hnew =>
    refine ⟨new.reverse, ?_, fun hs => ?_, fun _ _ => ⟨rest, hnew.wellNested⟩⟩
    · rw [List.reverse_reverse, ← List.append_nil new]
      exact htraced
    · cases hs

/-- A program that calls a routine which calls its argument. -/
def callArgument : Node :=
  .program [.routineDecl .function "f" [.str "x"] [.returnStmt (.ident "x")],
    .routineDecl .procedure "g" [.str "h"] [.exprStmt (.call "h" [.literal "\"a\"" "str"])],
    .exprStmt (.call "g" [.ident "f"])]

theorem traced_wellNested_callArgument :
    (1 : Int) ≤ 1 ∧ ((runProgram 16 callArgument).on { level := 1 }).1 = .ok () ∧
      ∃ lines, ((runProgram 16 callArgument).on { level := 1 }).2.traced = some lines.reverse ∧
        WellNested lines ∧ lines.map (·.depth) = [1, 2, 1, 0] := by
  have hok : ((runProgram 16 callArgument).on { level := 1 }).1 = .ok () := by cbv
  obtain ⟨lines, htraced, hnested, -⟩ := traced_wellNested 16 callArgument (Int.le_refl 1)
  refine ⟨Int.le_refl 1, hok, lines, htraced, hnested hok, ?_⟩
  have hdepths : (((runProgram 16 callArgument).on { level := 1 }).2.traced.map
      fun lines => lines.map TraceLine.depth) = some [0, 1, 2, 1] := by cbv
  rw [htraced] at hdepths
  simpa using congrArg (Option.map List.reverse) hdepths

end MiniAlgol
