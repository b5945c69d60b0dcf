import MiniAlgol.Proofs.Heap.Text
import MiniAlgol.Proofs.Value.Doubles

/-!
# What operators give

An operator gives a scalar, never an array or a routine, and its only faults are errors of the
language, those of the plain texts it joins or reports, and those of the names of types it reports.
In particular the quotients themselves never fail: the divisor is checked before.
-/

namespace MiniAlgol

namespace Value

/-- Whether the value is neither an array nor a routine. -/
def isScalar : Value → Bool
  | array _ | routine .. | builtin .. => false
  | _ => true

variable {heap : Heap} {op : String} {a b v : Value} {f : Fault}

/-- The type of a scalar has a name, whatever the heap. -/
theorem exists_typeName_of_isScalar (hv : v.isScalar) :
    ∃ name, ∀ heap, v.typeName heap = .ok name := by
  cases v with
  | array | routine | builtin => cases hv
  | _ => exact ⟨_, fun _ => rfl⟩

/-- Operands are refused by the names of their types, which may be too long to be written. -/
theorem unsupported_error (h : unsupported heap op a b = .error f) :
    f.kind?.isSome ∨ f = .numeral .tooLongToWrite := by
  rcases bind_error h with ha | ⟨left, -, h⟩
  · exact .inr (typeName_error ha)
  · rcases bind_error h with hb | ⟨right, -, h⟩
    · exact .inr (typeName_error hb)
    · cases h
      exact .inl rfl

theorem unsupported_ne_ok (r : Value) : unsupported heap op a b ≠ .ok r := by
  intro h
  obtain ⟨left, -, h⟩ := bind_ok h
  obtain ⟨right, -, h⟩ := bind_ok h
  cases h

theorem promote_error (h : promote heap op a b = .error f) :
    f.kind?.isSome ∨ f = .numeral .tooLongToWrite := by
  unfold promote at h
  split at h
  · cases h
  · rcases bind_error h with ha | ⟨left, -, h⟩
    · exact .inr (typeName_error ha)
    · rcases bind_error h with hb | ⟨right, -, h⟩
      · exact .inr (typeName_error hb)
      · cases h
        exact .inl rfl

theorem arithmetic_ok {g : Arithmetic} (h : arithmetic heap op g a b = .ok v) : v.isScalar := by
  unfold arithmetic at h
  split at h
  · obtain ⟨q, -, h⟩ := bind_ok h
    cases h
    rfl
  · split at h
    · obtain ⟨p, -, h⟩ := bind_ok h
      obtain ⟨q, -, h⟩ := bind_ok h
      cases h
      rfl
    · exact absurd h (unsupported_ne_ok v)

/-- A divisor that is not zero stays so when both numbers become doubles. -/
theorem promote_ok_divisor {p : Float × Float} (hb : b.isZero = false)
    (h : promote heap op a b = .ok p) : (p.2 == 0) = false := by
  unfold promote at h
  split at h
  · rename_i hreal
    cases h
    exact isZero_eq_false_of_toReal hb hreal
  · obtain ⟨left, -, h⟩ := bind_ok h
    obtain ⟨right, -, h⟩ := bind_ok h
    cases h

/-- Arithmetic fails with an error of the language, or for want of the name of a type, provided that
nothing is divided by zero. -/
theorem arithmetic_error {g : Arithmetic} (hg : g = .divide → b.isZero = false)
    (h : arithmetic heap op g a b = .error f) :
    f.kind?.isSome ∨ f = .numeral .tooLongToWrite := by
  unfold arithmetic at h
  split at h
  · rename_i m n
    cases g with
    | divide =>
      have hn : n ≠ 0 := by simpa [isZero] using hg rfl
      simp only [Arithmetic.onIntegers, truncatedQuotient, if_neg hn] at h
      cases h
    | _ => cases h
  · split at h
    · rcases bind_error h with hp | ⟨p, hp, h⟩
      · exact promote_error hp
      · cases g with
        | divide =>
          have hzero := promote_ok_divisor (hg rfl) hp
          simp only [Arithmetic.onReals, realQuotient, hzero] at h
          cases h
        | _ => cases h
    · exact unsupported_error h

theorem compare_ok {o : Order} (h : compare heap op o a b = .ok v) : v.isScalar := by
  unfold compare at h
  split at h
  · cases h
    rfl
  · split at h
    · obtain ⟨p, -, h⟩ := bind_ok h
      cases h
      rfl
    · exact absurd h (unsupported_ne_ok v)

theorem compare_error {o : Order} (h : compare heap op o a b = .error f) :
    f.kind?.isSome ∨ f = .numeral .tooLongToWrite := by
  unfold compare at h
  split at h
  · cases h
  · split at h
    · rcases bind_error h with hp | ⟨p, -, h⟩
      · exact promote_error hp
      · cases h
    · exact unsupported_error h

theorem applySign_ok (h : applySign heap op a b = .ok v) : v.isScalar := by
  unfold applySign at h
  split at h
  · cases h
  · cases h
    rfl
  · cases h
    rfl
  · exact compare_ok h
  · split at h
    · obtain ⟨left, -, h⟩ := bind_ok h
      obtain ⟨right, -, h⟩ := bind_ok h
      cases h
      rfl
    · exact arithmetic_ok h
  · split at h
    · obtain ⟨shown, -, h⟩ := bind_ok h
      cases h
    · exact arithmetic_ok h
  · exact arithmetic_ok h

theorem applySign_error (h : applySign heap op a b = .error f) :
    (f.kind?.isSome ∨ f = .numeral .tooLongToWrite) ∨ a.plainText heap = .error f ∨
      b.plainText heap = .error f := by
  unfold applySign at h
  split at h
  · cases h
    exact .inl (.inl rfl)
  · cases h
  · cases h
  · exact .inl (compare_error h)
  · split at h
    · rcases bind_error h with ha | ⟨left, -, h⟩
      · exact .inr (.inl ha)
      · rcases bind_error h with hb | ⟨right, -, h⟩
        · exact .inr (.inr hb)
        · cases h
    · exact .inl (arithmetic_error (by simp) h)
  · split at h
    · rcases bind_error h with ha | ⟨shown, -, h⟩
      · exact .inr (.inl ha)
      · cases h
        exact .inl (.inl rfl)
    · rename_i hzero
      exact .inl (arithmetic_error (fun _ => by simpa using hzero) h)
  · rename_i g hadd hdivide _
    exact .inl (arithmetic_error (fun hg => absurd hg hdivide) h)

/-- An operator gives a scalar. -/
theorem apply_ok {op : Label} (h : a.apply heap op b = .ok v) : v.isScalar := by
  unfold apply at h
  split at h
  · exact applySign_ok h
  · cases h

/-- An operator fails with an error of the language, or for want of the plain text of an operand or
of the name of its type. -/
theorem apply_error {op : Label} (h : a.apply heap op b = .error f) :
    (f.kind?.isSome ∨ f = .numeral .tooLongToWrite) ∨ a.plainText heap = .error f ∨
      b.plainText heap = .error f := by
  unfold apply at h
  split at h
  · exact applySign_error h
  · cases h
    exact .inl (.inl rfl)

end Value

end MiniAlgol
