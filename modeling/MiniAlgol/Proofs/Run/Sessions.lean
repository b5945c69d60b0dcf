import MiniAlgol.Proofs.Run.Invariant
import MiniAlgol.Session

/-!
# Invariants of sessions

The scopes of a session share one heap, so an invariant of runs is one of a session when it holds
of that heap with each of the scopes (`Invariant.Everywhere`). What is done in one scope keeps it,
provided that the run may still hold what it could hold before, since the other scopes hold that.
-/

namespace MiniAlgol

open MiniAlgol.Action

namespace Session

variable {α : Type}

theorem scope_withScope (s : Session) (scope name : String) :
    (s.withScope scope).scope name = s.scope name := by
  unfold withScope
  split
  · rfl
  · rename_i hnew
    unfold Session.scope
    by_cases hname : name = scope
    · grind
    · grind

theorem machine_withScope (s : Session) (scope : String) :
    (s.withScope scope).machine = s.machine := by
  unfold withScope
  split <;> rfl

theorem lookup_putOther (scope name : String) (new : Scope) (others : List (String × Scope)) :
    (putOther scope new others).lookup name = some new ∨
      (putOther scope new others).lookup name = others.lookup name := by
  induction others with
  | nil => exact .inr rfl
  | cons first others ih =>
    by_cases hfirst : first.1 = scope
    · rw [putOther, if_pos hfirst, List.lookup_cons, List.lookup_cons]
      cases name == first.1 with
      | true => exact .inl rfl
      | false => exact .inr rfl
    · rw [putOther, if_neg hfirst, List.lookup_cons, List.lookup_cons]
      cases name == first.1 with
      | true => exact .inr rfl
      | false => exact ih

/-- After an action in a scope the heap is the one that the action left, and every scope is the one
that the action left or as it was. -/
theorem within_eq (s : Session) (scope : String) (x : Action α) {m : Machine}
    (hm : (x.on { s.machine with scope := s.scope scope }).2 = m) :
    (s.within scope x).2.machine.heap = m.heap ∧
    ∀ name, (s.within scope x).2.scope name = m.scope ∨
      (s.within scope x).2.scope name = s.scope name := by
  subst hm
  unfold within
  split
  · rename_i hprogram
    have hmachine : ({ s.machine with scope := s.scope scope } : Machine) = s.machine := by
      rw [Session.scope, if_pos hprogram]
    rw [hmachine]
    refine ⟨rfl, fun name => ?_⟩
    by_cases hname : name = programName
    · left
      rw [Session.scope, if_pos hname]
    · right
      rw [Session.scope, if_neg hname, Session.scope, if_neg hname]
  · generalize x.on { s.machine with scope := s.scope scope } = r
    refine ⟨rfl, fun name => ?_⟩
    by_cases hname : name = programName
    · right
      rw [Session.scope, if_pos hname, Session.scope, if_pos hname]
    · rw [Session.scope, if_neg hname, Session.scope, if_neg hname]
      rcases lookup_putOther scope name r.2.scope s.others with hnew | hold
      · left
        rw [hnew]
        rfl
      · right
        rw [hold]

end Session

namespace Invariant

open Session

variable {I : Invariant} {s : Session} {α : Type}

/-- The invariant holds in each scope of the session. -/
def Everywhere (I : Invariant) (s : Session) : Prop :=
  ∀ name, I.Holds { s.machine with scope := s.scope name }

theorem everywhere_atLevel (hheap : I.heap #[]) (level : Int) : I.Everywhere (atLevel level) := by
  intro name
  have hscope : (atLevel level).scope name = Scope.builtins ∨
      (atLevel level).scope name = Scope.empty := by
    unfold Session.scope
    split
    · exact .inl rfl
    · exact .inr rfl
  refine ⟨hheap, ?_⟩
  rcases hscope with hscope | hscope
  · rw [hscope]
    exact Scope.related_builtins fun _ => ⟨rfl, trivial⟩
  · rw [hscope]
    exact Scope.related_empty

/-- What is done in one scope leaves the other ones as they are. -/
theorem Everywhere.within (hs : I.Everywhere s) (scope : String) {x : Action α}
    (hx : I.Holds (x.on { s.machine with scope := s.scope scope }).2)
    (hvalues : ∀ {v}, I.value s.machine.heap v →
      I.value (x.on { s.machine with scope := s.scope scope }).2.heap v) :
    I.Everywhere ((s.withScope scope).within scope x).2 := by
  have hmachine : (x.on { (s.withScope scope).machine with
      scope := (s.withScope scope).scope scope }).2
        = (x.on { s.machine with scope := s.scope scope }).2 := by
    rw [machine_withScope, scope_withScope]
  obtain ⟨hheap, hscopes⟩ := within_eq (s.withScope scope) scope x hmachine
  intro name
  refine ⟨hheap ▸ hx.heap, ?_⟩
  rcases hscopes name with hname | hname
  · simp only [hname, hheap]
    exact hx.scope
  · simp only [hname, hheap, scope_withScope]
    exact (hs name).scope.imp fun _ _ hv => ⟨hv.1, hvalues hv.2⟩

end Invariant

end MiniAlgol
