import Mathlib.Data.List.Forall2

/-!
# Results that may be errors

How a computation that may fail came to its result: `bind_ok` and `bind_error` take the steps of a
`do` block apart, and the lemmas about `mapM` do the same for a list. `EndAlike` compares two
computations step by step.
-/

namespace MiniAlgol

variable {ε α β : Type}

@[simp] theorem ok_bind (a : α) (f : α → Except ε β) : (Except.ok a >>= f) = f a := rfl

@[simp] theorem pure_eq_ok (a : α) : (pure a : Except ε α) = .ok a := rfl

theorem bind_ok {x : Except ε α} {f : α → Except ε β} {b : β} (h : (x >>= f) = .ok b) :
    ∃ a, x = .ok a ∧ f a = .ok b :=
  match x, h with
  | .ok a, h => ⟨a, rfl, h⟩

theorem bind_error {x : Except ε α} {f : α → Except ε β} {e : ε} (h : (x >>= f) = .error e) :
    x = .error e ∨ ∃ a, x = .ok a ∧ f a = .error e := by
  cases x with
  | error e' =>
    cases h
    exact .inl rfl
  | ok a => exact .inr ⟨a, rfl, h⟩

theorem map_ok {x : Except ε α} {f : α → β} {b : β} (h : x.map f = .ok b) :
    ∃ a, x = .ok a ∧ f a = b :=
  match x, h with
  | .ok a, h => ⟨a, rfl, Except.ok.inj h⟩

theorem exists_of_mapM_error {f : α → Except ε β} {l : List α} {e : ε}
    (h : l.mapM f = .error e) : ∃ a ∈ l, f a = .error e := by
  induction l with
  | nil => cases h
  | cons a rest ih =>
    rw [List.mapM_cons] at h
    rcases bind_error h with ha | ⟨b, -, h⟩
    · exact ⟨a, List.mem_cons_self, ha⟩
    · rcases bind_error h with hrest | ⟨bs, -, h⟩
      · obtain ⟨c, hc, hfc⟩ := ih hrest
        exact ⟨c, List.mem_cons_of_mem a hc, hfc⟩
      · cases h

theorem exists_of_mem_mapM {f : α → Except ε β} {l : List α} {bs : List β} {b : β}
    (h : l.mapM f = .ok bs) (hb : b ∈ bs) : ∃ a ∈ l, f a = .ok b := by
  induction l generalizing bs with
  | nil =>
    cases h
    cases hb
  | cons a rest ih =>
    rw [List.mapM_cons] at h
    obtain ⟨c, hc, h⟩ := bind_ok h
    obtain ⟨cs, hcs, h⟩ := bind_ok h
    cases h
    rcases List.mem_cons.1 hb with rfl | hb
    · exact ⟨a, List.mem_cons_self, hc⟩
    · obtain ⟨a', ha', hfa⟩ := ih hcs hb
      exact ⟨a', List.mem_cons_of_mem a ha', hfa⟩

theorem mapM_congr₂ {γ : Type} {f : α → Except ε β} {g : γ → Except ε β} {l : List α}
    {l' : List γ} (h : List.Forall₂ (fun a c => f a = g c) l l') : l.mapM f = l'.mapM g := by
  induction h with
  | nil => rfl
  | cons hac _ ih => rw [List.mapM_cons, List.mapM_cons, hac, ih]

/-- Functions that differ only where the first one fails with `e` give the same list, unless the
first one fails so. -/
theorem mapM_eq_of_ne_error {f g : α → Except ε β} {l : List α} {e : ε}
    (h : ∀ a ∈ l, f a ≠ .error e → g a = f a) (hne : l.mapM f ≠ .error e) :
    l.mapM g = l.mapM f := by
  induction l with
  | nil => rfl
  | cons a rest ih =>
    rw [List.mapM_cons] at hne ⊢
    rw [List.mapM_cons]
    have hfa : f a ≠ .error e := by
      intro hfa
      rw [hfa] at hne
      exact hne rfl
    rw [h a List.mem_cons_self hfa]
    cases hb : f a with
    | error e' => rfl
    | ok b =>
      rw [hb] at hne
      have hrest : rest.mapM f ≠ .error e := by
        intro hrest
        simp only [hrest, bind, Except.bind] at hne
        exact hne rfl
      rw [ih (fun c hc => h c (List.mem_cons_of_mem a hc)) hrest]

/-! ## Two results -/

/-- Both are results that are related, or both are errors that are. -/
inductive EndAlike {ε' : Type} (E : ε → ε' → Prop) (R : α → β → Prop) :
    Except ε α → Except ε' β → Prop where
  | ok {a : α} {b : β} (h : R a b) : EndAlike E R (.ok a) (.ok b)
  | error {e : ε} {e' : ε'} (h : E e e') : EndAlike E R (.error e) (.error e')

namespace EndAlike

variable {ε' α' β' : Type} {E : ε → ε' → Prop} {R : α → α' → Prop} {Q : β → β' → Prop}

theorem bind {x : Except ε α} {y : Except ε' α'} {f : α → Except ε β} {g : α' → Except ε' β'}
    (hxy : EndAlike E R x y) (hfg : ∀ a b, R a b → EndAlike E Q (f a) (g b)) :
    EndAlike E Q (x >>= f) (y >>= g) := by
  cases hxy with
  | ok h => exact hfg _ _ h
  | error h => exact .error h

/-- One computation in both places. -/
theorem same {E : ε → ε → Prop} {R : α → α → Prop} {x : Except ε α}
    (hok : ∀ a, x = .ok a → R a a) (herror : ∀ e, x = .error e → E e e) : EndAlike E R x x := by
  cases x with
  | ok a => exact .ok (hok a rfl)
  | error e => exact .error (herror e rfl)

end EndAlike

end MiniAlgol
