import MiniAlgol.Proofs.Run.Actions
import MiniAlgol.Proofs.Except
import Mathlib.Data.Option.Basic

/-!
# Scopes with related values

Two scopes are related when they have the same keys and related values for them. Setting a name,
starting a call and finding what a call stands for keep scopes related.

A call runs in a scope of its own: `blind_callValue` says that, once it is known what is called,
the scope around the call neither matters nor changes.
-/

namespace MiniAlgol

open MiniAlgol.Action

/-- The name that a label gives has the key of the label. -/
theorem Name.key_of_ofLabel {label : Label} {name : Name} (h : Name.ofLabel label = .ok name) :
    Key.ofLabel? label = some name.key := by
  unfold Name.ofLabel at h
  split at h
  · next found hfound =>
    cases h
    unfold Name.ofLabel? at hfound
    split at hfound
    · next key hkey =>
      cases hfound
      exact hkey
    · cases hfound
  · cases h

namespace Scope

variable {R : Value → Value → Prop} {s s' : Scope} {v v' : Value}

/-- The same keys with related values. -/
def Related (R : Value → Value → Prop) (s s' : Scope) : Prop :=
  ∀ key, Option.Rel R (s.get? key) (s'.get? key)

theorem Related.imp {Q : Value → Value → Prop} (h : Related R s s')
    (hRQ : ∀ v v', R v v' → Q v v') : Related Q s s' := by
  intro key
  have hkey := h key
  generalize s.get? key = l at hkey ⊢
  generalize s'.get? key = r at hkey ⊢
  cases hkey with
  | none => exact .none
  | some hv => exact .some (hRQ _ _ hv)

theorem Related.set (h : Related R s s') (name : Name) (hv : R v v') :
    Related R (s.set name v) (s'.set name v') := by
  intro key
  rw [get?_set, get?_set]
  split
  · exact .some hv
  · exact h key

theorem related_empty : Related R empty empty :=
  fun _ => .none

theorem related_foldl (names : List Name) {args args' : List Value}
    (hargs : List.Forall₂ R args args') (h : Related R s s') :
    Related R ((names.zip args).foldl (fun scope (name, v) => scope.set name v) s)
      ((names.zip args').foldl (fun scope (name, v) => scope.set name v) s') := by
  induction hargs generalizing names s s' with
  | nil => simpa using h
  | cons hv _ ih =>
    cases names with
    | nil => exact h
    | cons name names => exact ih names (h.set name hv)

/-- Setting names of other keys leaves what a key stands for. -/
theorem get?_foldl_set {key : Key} (bindings : List (Name × Value)) (s : Scope)
    (hother : ∀ b ∈ bindings, b.1.key ≠ key) :
    (bindings.foldl (fun scope (name, v) => scope.set name v) s).get? key = s.get? key := by
  induction bindings generalizing s with
  | nil => rfl
  | cons b rest ih =>
    rw [List.forall_mem_cons] at hother
    rw [List.foldl_cons, ih _ hother.2, get?_set, if_neg hother.1.symm]

/-- Calls with related arguments start with related scopes, or fail alike for a parameter that is
no name. -/
theorem ofArguments_related (params : List Label) {args args' : List Value}
    (hargs : List.Forall₂ R args args') :
    (∃ f, params.mapM Name.ofLabel = .error f ∧ ofArguments params args = .error f ∧
      ofArguments params args' = .error f) ∨
    ∃ s s', ofArguments params args = .ok s ∧ ofArguments params args' = .ok s' ∧
      Related R s s' := by
  simp only [ofArguments]
  cases params.mapM Name.ofLabel with
  | error f => exact .inl ⟨f, rfl, rfl, rfl⟩
  | ok names => exact .inr ⟨_, _, rfl, rfl, related_foldl names hargs related_empty⟩

theorem related_builtins (hb : ∀ b, R (.builtin 0 b) (.builtin 0 b)) :
    Related R builtins builtins := by
  intro key
  simp only [builtins, get?, find?]
  split
  · exact .some (hb _)
  · exact .none

/-- What a key stands for in a call. -/
theorem Related.orElse_builtins (h : Related R s s')
    (hb : ∀ b, R (.builtin 0 b) (.builtin 0 b)) (key : Key) :
    Option.Rel R (s.get? key <|> builtins.get? key) (s'.get? key <|> builtins.get? key) := by
  have hkey := h key
  generalize s.get? key = l at hkey ⊢
  generalize s'.get? key = r at hkey ⊢
  cases hkey with
  | some hv => exact .some hv
  | none => exact related_builtins hb key

end Scope

/-! ## Actions that leave a part of the machine alone -/

section Ignores

variable {α β : Type} {g : Machine → Machine}

/-- The action neither looks at what `g` sets in a machine nor touches it. -/
def Ignores (g : Machine → Machine) (x : Action α) : Prop :=
  ∀ m, x.on (g m) = ((x.on m).1, g (x.on m).2)

theorem ignores_lift (r : Except Fault α) : Ignores g (lift r) := by
  intro m
  cases r <;> rfl

theorem ignores_modify {f : Machine → Machine} (hf : ∀ m, f (g m) = g (f m)) :
    Ignores g (modify f) := by
  intro m
  rw [on_modify, on_modify, hf]

theorem ignores_bind {x : Action α} {f : α → Action β} (hx : Ignores g x)
    (hf : ∀ a, Ignores g (f a)) : Ignores g (x >>= f) := by
  intro m
  rw [on_bind, on_bind, hx m]
  rcases x.on m with ⟨r, m'⟩
  cases r with
  | error s => rfl
  | ok a => exact hf a m'

/-- An action that only looks at the heap, which stays. -/
theorem ignores_look (hg : ∀ m, (g m).heap = m.heap) (F : Heap → Except Fault α) :
    Ignores g (do lift (F (← get).heap)) := by
  intro m
  show (lift (F (g m).heap)).on (g m) = _
  rw [hg, ignores_lift]
  rfl

end Ignores

/-! ## Actions that do not look at the scope -/

section Blind

variable {α β : Type}

/-- The scope neither matters to the action nor changes. -/
def Blind (x : Action α) : Prop :=
  ∀ m scope, x.on { m with scope } = ((x.on m).1, { (x.on m).2 with scope })

theorem blind_of_ignores {x : Action α}
    (hx : ∀ scope, Ignores (fun m => { m with scope }) x) : Blind x :=
  fun m scope => hx scope m

theorem Blind.ignores {x : Action α} (hx : Blind x) (scope : Scope) :
    Ignores (fun m => { m with scope }) x :=
  fun m => hx m scope

theorem blind_pure (a : α) : Blind (pure a : Action α) :=
  fun _ _ => rfl

theorem blind_lift (r : Except Fault α) : Blind (lift r) :=
  blind_of_ignores fun _ => ignores_lift r

theorem blind_modify {f : Machine → Machine}
    (hf : ∀ m scope, f { m with scope } = { f m with scope }) : Blind (modify f) :=
  blind_of_ignores fun scope => ignores_modify fun m => hf m scope

theorem blind_bind {x : Action α} {f : α → Action β} (hx : Blind x) (hf : ∀ a, Blind (f a)) :
    Blind (x >>= f) :=
  blind_of_ignores fun scope => ignores_bind (hx.ignores scope) fun a => (hf a).ignores scope

/-- An action that only looks at the heap. -/
theorem blind_look (F : Heap → Except Fault α) : Blind (do lift (F (← get).heap)) :=
  blind_of_ignores fun scope => ignores_look (g := fun m => { m with scope }) (fun _ => rfl) F

theorem blind_record (level : Int) (event : Heap → Except Fault Event) :
    Blind (record level event) := by
  intro m scope
  rw [on_record, on_record]
  simp only
  split
  · cases event m.heap with
    | error f => rfl
    | ok e =>
      simp only [Machine.note]
      split <;> rfl
  · rfl

/-- A body that runs in a scope of its own does not see the one around it. -/
theorem blind_inCall (start : Scope) (x : Action α) : Blind (inCall start x) := by
  intro m scope
  rw [on_inCall, on_inCall]
  -- both bodies start in the same scope, so they are one run
  rcases x.on { m with scope := start } with ⟨r, m'⟩
  cases r <;> rfl

theorem blind_activate (r : Routine) (args : List Value) (x : Action Unit) :
    Blind (activate r args x) := by
  refine blind_bind (blind_lift _) fun start => ?_
  refine blind_bind (blind_modify fun _ _ => rfl) fun _ => ?_
  refine blind_bind (blind_record _ _) fun _ => ?_
  refine blind_bind (blind_inCall start x) fun _ => ?_
  exact blind_bind (blind_record _ _) fun _ => blind_pure _

theorem blind_printValues (vs : List Value) : Blind (printValues vs) := by
  induction vs with
  | nil => exact blind_pure ()
  | cons v rest ih =>
    refine blind_bind (blind_look fun heap => v.plainText heap) fun _ => ?_
    exact blind_bind (blind_modify fun _ _ => rfl) fun _ => ih

theorem blind_callBuiltin (b : Builtin) (name : Label) (args : List Value) :
    Blind (callBuiltin b name args) := by
  unfold callBuiltin
  split
  · split
    · exact blind_bind (blind_printValues args) fun _ => blind_pure _
    · exact blind_lift (.error _)
  · exact blind_bind (blind_printValues args) fun _ => blind_pure _

/-- A call does not look at the scope around it, once it is known what is called. -/
theorem blind_callValue (fuel : Nat) (name : Label) (args : List Value) (callee : Option Value) :
    Blind (callValue fuel name args callee) := by
  unfold callValue
  split
  · exact blind_lift (.error _)
  · exact blind_callBuiltin _ _ _
  · split
    · exact blind_activate _ _ _
    · exact blind_lift (.error _)
  · exact blind_bind (blind_look fun heap => Value.typeName heap _) fun _ => blind_lift (.error _)

end Blind

end MiniAlgol
