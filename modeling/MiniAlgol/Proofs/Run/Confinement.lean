import MiniAlgol.Proofs.Run.Invariant

/-!
# Calls are confined to their arguments

A call cannot touch an array that its arguments do not reach, and hands out no such array.

The invariant is that everything a call can hold is `Touchable`: reached from the arguments when
the call started, or allocated since. What is reached changes while the call runs, since arrays can
be stored in one another; but touchable arrays hold touchable arrays only, and storing, allocating
and nested calls keep that.
-/

namespace MiniAlgol

open Invariant

/-- Reached from the arguments before, or allocated since. -/
def Touchable (before : Heap) (args : List Value) (h : Heap) (a : Nat) : Prop :=
  before.Reaches args a ∨ before.size ≤ a ∧ a < h.size

/-- Touchable arrays hold touchable arrays, and the others are as they were. -/
structure Confined (before : Heap) (args : List Value) (h : Heap) : Prop where
  size_le : before.size ≤ h.size
  closed : ∀ {a b x}, Touchable before args h a → h[a]? = some x → Value.array b ∈ x.elements →
    Touchable before args h b
  frame : ∀ {a}, a < before.size → ¬ before.Reaches args a → h[a]? = before[a]?

variable {before h h' : Heap} {args : List Value} {a : Nat}

theorem Touchable.grows (hg : Heap.Grows h h') (ha : Touchable before args h a) :
    Touchable before args h' a := by
  refine ha.imp_right fun ⟨hle, hlt⟩ => ⟨hle, ?_⟩
  have := hg.size_le
  omega

/-- The invariant of a call with these arguments, started on this heap. -/
def confinement (before : Heap) (args : List Value) : Invariant where
  expression _ := True
  statement _ := True
  routine _ := True
  address := Touchable before args
  heap := Confined before args
  fault _ _ := True
  address_grows := Touchable.grows

theorem confined_start : Confined before args before where
  size_le := le_rfl
  closed ha hx hb := by
    rcases ha with ha | ha
    · exact .inl (ha.element hx hb)
    · omega
  frame _ _ := rfl

theorem Confined.push {elem : Tag} {extents : List Int} {x : ArrayObject}
    (hc : Confined before args h) (hx : ArrayObject.allocate elem extents = .ok x) :
    Confined before args (h.push x) where
  size_le := by
    rw [Array.size_push]
    exact hc.size_le.trans (Nat.le_succ _)
  closed := by
    intro a b y ha hy hb
    rw [Array.getElem?_push] at hy
    split at hy
    · -- the new array holds nothing
      cases hy
      cases ArrayObject.eq_undefined_of_mem_allocate hx hb
    · have hlt := (Array.getElem?_eq_some_iff.1 hy).1
      have ha' : Touchable before args h a := ha.imp_right fun hle => ⟨hle.1, hlt⟩
      exact (hc.closed ha' hy hb).grows (Heap.Grows.push h x)
  frame := by
    intro a ha hnot
    have := hc.size_le
    rw [Array.getElem?_push, if_neg (by omega)]
    exact hc.frame ha hnot

theorem Confined.put {x x' : ArrayObject} {i j : Int} {v : Value} (hc : Confined before args h)
    (ha : Touchable before args h a) (hx : h[a]? = some x)
    (hv : (confinement before args).value h v) (hput : x.put i j v = .ok x') :
    Confined before args (h.setIfInBounds a x') where
  size_le := by
    rw [Array.size_setIfInBounds]
    exact hc.size_le
  closed := by
    intro c b y hcell hy hb
    have hgrow := Heap.Grows.set hx hput
    have hcell' : Touchable before args h c := by
      rw [Touchable, Array.size_setIfInBounds] at hcell
      exact hcell
    rw [Heap.getElem?_set hx] at hy
    split at hy
    · cases hy
      rcases ArrayObject.mem_of_mem_put hput hb with rfl | hb
      · exact Touchable.grows hgrow hv
      · exact (hc.closed ha hx hb).grows hgrow
    · exact (hc.closed hcell' hy hb).grows hgrow
  frame := by
    intro c hlt hnot
    rw [Heap.getElem?_set hx, if_neg]
    · exact hc.frame hlt hnot
    · rintro rfl
      rcases ha with ha | ha
      · exact hnot ha
      · omega

theorem confinement_kept (before : Heap) (args : List Value) : (confinement before args).Kept where
  expression_parts _ _ _ := trivial
  statement_expressions _ _ _ := trivial
  statement_parts _ _ _ := trivial
  routine_body _ _ _ := trivial
  declared _ := trivial
  element := by
    intro h a x v hh ha hx hv
    cases v with
    | array b => exact hh.closed ha hx hv
    | _ => trivial
  push := by
    intro h name elem extents init x hh _ hx
    refine ⟨hh.push hx, .inr ⟨hh.size_le, ?_⟩⟩
    rw [Array.size_push]
    exact Nat.lt_succ_self _
  put hh ha hx hv _ hput := hh.put ha hx hv hput

/-- Confinement forbids no fault. -/
theorem confinement_allows (before : Heap) (args : List Value) :
    (confinement before args).Allows :=
  allows_of_fault trivial

/-- What is called keeps the invariant, from any scope. -/
theorem callValue_leaves (fuel : Nat) (name : Label) (args : List Value) (callee : Option Value)
    (m : Machine) :
    (confinement m.heap args).Leaves m.heap (confinement m.heap args).value
      ((callValue fuel name args callee).on { m with scope := Scope.empty }) := by
  have hstart : (confinement m.heap args).Holds { m with scope := Scope.empty } :=
    ⟨confined_start, Scope.related_empty⟩
  have hargs : ∀ v ∈ args, (confinement m.heap args).value m.heap v := by
    intro v hv
    cases v with
    | array a => exact .inl ⟨a, hv, .refl⟩
    | _ => trivial
  -- an array cannot be called, and need not be touchable
  by_cases harray : ∃ a, callee = some (.array a)
  · obtain ⟨a, rfl⟩ := harray
    obtain ⟨f, hon⟩ := on_callValue_other fuel name args (v := .array a) rfl
      { m with scope := Scope.empty }
    rw [hon]
    exact .fault (Heap.Grows.refl _) hstart trivial
  · refine Kept.call (m := { m with scope := Scope.empty }) (confinement_kept m.heap args)
      (confinement_allows m.heap args) fuel (fun v hv => ?_) hargs hstart
    cases v with
    | array a => exact absurd ⟨a, hv⟩ harray
    | _ => trivial

/-- All that can be reached from a touchable value is touchable. -/
theorem Confined.reaches {v : Value} {b : Nat} (hc : Confined before args h)
    (hv : (confinement before args).value h v) (hb : h.Reaches [v] b) :
    Touchable before args h b := by
  refine Heap.Reaches.induction (p := Touchable before args h) (fun a ha => ?_)
    (fun a b ha hab => ?_) hb
  · rw [List.mem_singleton] at ha
    subst ha
    exact hv
  · obtain ⟨x, hx, hmem⟩ := hab
    exact hc.closed ha hx hmem

/-- A call leaves every array that was there and is not reached from its arguments as it was,
however it ends, and every array that is reached from its result was reached from its arguments or
is new. -/
theorem invoke_confined (fuel : Nat) (name : Label) (args : List Value) (m : Machine) :
    (∀ a < m.heap.size, ¬ m.heap.Reaches args a →
      ((invoke fuel name args).on m).2.heap[a]? = m.heap[a]?) ∧
    ∀ v, ((invoke fuel name args).on m).1 = .ok v →
      ∀ a, ((invoke fuel name args).on m).2.heap.Reaches [v] a →
        m.heap.Reaches args a ∨
          m.heap.size ≤ a ∧ a < ((invoke fuel name args).on m).2.heap.size := by
  cases fuel with
  | zero =>
    refine ⟨fun a _ _ => rfl, fun v hv => ?_⟩
    cases hv
  | succ fuel =>
    rw [invoke_succ, Action.on_bind]
    have hcallee : ((callee name).on m).2 = m := by
      simp only [callee, Action.on_bind]
      cases Name.ofLabel name <;> rfl
    rcases hstep : (callee name).on m with ⟨result, m'⟩
    rw [hstep] at hcallee
    simp only at hcallee
    subst hcallee
    cases result with
    | error s => exact ⟨fun a _ _ => rfl, fun v hv => by cases hv⟩
    | ok v =>
      simp only
      -- the scope around the call can be left out
      have hleaves := callValue_leaves fuel name args v m'
      rw [blind_callValue fuel name args v m' Scope.empty] at hleaves
      generalize (callValue fuel name args v).on m' = r at hleaves ⊢
      obtain ⟨result, m''⟩ := r
      cases hleaves with
      | ok _ hm hv =>
        refine ⟨fun a ha hnot => hm.heap.frame ha hnot, fun u hu a ha => ?_⟩
        cases hu
        exact hm.heap.reaches hv ha
      | fault _ hm _ =>
        exact ⟨fun a ha hnot => hm.heap.frame ha hnot, fun u hu => by cases hu⟩
      | outOfFuel _ hm =>
        exact ⟨fun a ha hnot => hm.heap.frame ha hnot, fun u hu => by cases hu⟩

end MiniAlgol
