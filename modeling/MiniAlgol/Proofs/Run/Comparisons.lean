import MiniAlgol.Proofs.Heap.Expansion
import MiniAlgol.Proofs.Run.Invariant
import MiniAlgol.Proofs.Run.WriteSet
import MiniAlgol.Proofs.Value.Equality

/-!
# Comparisons in runs

A comparison with `==` or `!=` depends on the values of its operands and on nothing else of the
machine (`Compares.answer`), so what ran in between makes no difference to it, whatever it stored in
arrays. Nor does a run change an array into one of another variant (`variant_of_run`). And a run that
does not write two variables leaves them with their values, so that a comparison of them ends as
before (`on_comparison_of_run`). Together with the laws of equality this is `equality_laws`.
-/

namespace MiniAlgol

open MiniAlgol.Action Invariant

variable {before h : Heap} {a : Nat} {x x' : ArrayObject} {v w : Value} {m : Machine}

/-! ## Variants of arrays -/

theorem ArrayObject.arrayVariant_put {i j : Int} (hput : x.put i j v = .ok x') :
    Value.arrayVariant (some x') = Value.arrayVariant (some x) := by
  cases x with
  | line elem items =>
    obtain ⟨k, -, hput⟩ := bind_ok hput
    cases hput
    rfl
  | grid elem rows cols cells =>
    obtain ⟨k, -, hput⟩ := bind_ok hput
    obtain ⟨l, -, hput⟩ := bind_ok hput
    cases hput
    rfl

/-- The values of the heap before are values of this one, with the variants that they had. -/
def Heap.KeepsVariants (before h : Heap) : Prop :=
  ∀ v, before.Has v → h.Has v ∧ v.variant h = v.variant before

theorem Heap.KeepsVariants.push (hh : before.KeepsVariants h) (x : ArrayObject) :
    before.KeepsVariants (h.push x) := by
  intro v hv
  obtain ⟨hhas, hvariant⟩ := hh v hv
  rw [← hvariant]
  cases v with
  | array b =>
    have hlt : b < h.size := hhas
    refine ⟨?_, ?_⟩
    · rw [Heap.Has, Array.size_push]
      omega
    · simp only [Value.variant]
      rw [Array.getElem?_push, if_neg (by omega)]
  | _ => exact ⟨trivial, rfl⟩

theorem Heap.KeepsVariants.put {i j : Int} {u : Value} (hh : before.KeepsVariants h)
    (hx : h[a]? = some x) (hput : x.put i j u = .ok x') :
    before.KeepsVariants (h.setIfInBounds a x') := by
  intro v hv
  obtain ⟨hhas, hvariant⟩ := hh v hv
  rw [← hvariant]
  cases v with
  | array b =>
    refine ⟨?_, ?_⟩
    · rw [Heap.Has, Array.size_setIfInBounds]
      exact hhas
    · simp only [Value.variant]
      rw [Heap.getElem?_set hx]
      split
      · rename_i hba
        rw [hba, hx, ArrayObject.arrayVariant_put hput]
      · rfl
  | _ => exact ⟨trivial, rfl⟩

/-- The invariant of the runs from a heap: its arrays keep their variants. -/
def keepingVariants (before : Heap) : Invariant where
  expression _ := True
  statement _ := True
  routine _ := True
  address _ _ := True
  heap := before.KeepsVariants
  fault _ _ := True
  address_grows _ _ := trivial

theorem keepingVariants_value : (keepingVariants before).value h v := by
  cases v <;> trivial

theorem keepingVariants_kept (before : Heap) : (keepingVariants before).Kept where
  expression_parts _ _ _ := trivial
  statement_expressions _ _ _ := trivial
  statement_parts _ _ _ := trivial
  routine_body _ _ _ := trivial
  declared _ := trivial
  element _ _ _ _ := keepingVariants_value
  push hh _ _ := ⟨hh.push _, trivial⟩
  put hh _ hx _ _ hput := hh.put hx hput

theorem keepingVariants_allows (before : Heap) : (keepingVariants before).Allows :=
  allows_of_fault trivial

/-- However statements end, the values of the heap keep their variants. -/
theorem variant_of_run (fuel : Nat) (body : List Node) (hv : m.heap.Has v) :
    v.variant ((executeAll fuel body).on m).2.heap = v.variant m.heap := by
  have hstart : (keepingVariants m.heap).Holds m :=
    holds_iff.2 ⟨fun v hv => ⟨hv, rfl⟩, fun _ _ _ => keepingVariants_value⟩
  have hbody : ∀ n ∈ body, (keepingVariants m.heap).statement n := fun _ _ => trivial
  have hend := (keepingVariants_kept m.heap).run (keepingVariants_allows m.heap) fuel hbody hstart
  exact (hend.holds.heap v hv).2

/-! ## What a comparison answers -/

/-- The result of applying the sign, on this machine, to operands that give these two values. -/
inductive Compares (m : Machine) (sign : String) (v w : Value) : Except Stop Value → Prop where
  | intro {fuel : Nat} (cls : BinaryClass) {left right : Node} {m₁ m₂ : Machine}
      (hleft : (evaluate fuel left).on m = (.ok v, m₁))
      (hright : (evaluate fuel right).on m₁ = (.ok w, m₂)) :
      Compares m sign v w ((evaluate (fuel + 1) (.binary cls sign left right)).on m).1

/-- A sign of equality, and what it makes of whether its operands are equal. -/
inductive EqualitySign : String → (Bool → Bool) → Prop where
  | equal : EqualitySign "==" id
  | notEqual : EqualitySign "!=" not

theorem EqualitySign.apply {sign : String} {f : Bool → Bool} (hsign : EqualitySign sign f)
    (heap : Heap) (v w : Value) : v.apply heap sign w = .ok (.bool (f (v.equal w))) := by
  cases hsign with
  | equal | notEqual => rfl

theorem Compares.answer {sign : String} {f : Bool → Bool} {r : Except Stop Value}
    (hr : Compares m sign v w r) (hsign : EqualitySign sign f) :
    r = .ok (.bool (f (v.equal w))) := by
  cases hr with
  | intro cls hleft hright =>
    simp only [evaluate, on_bind, hleft, hright, on_get, hsign.apply, on_lift_ok]

/-- Variables that have the values can be compared. -/
theorem Compares.variables (cls : BinaryClass) (sign : String) {left right : Label}
    (hleft : m.scope.get left = .ok v) (hright : m.scope.get right = .ok w) :
    Compares m sign v w ((evaluate 2 (.binary cls sign (.ident left) (.ident right))).on m).1 := by
  refine @Compares.intro m sign v w 1 cls (.ident left) (.ident right) m m ?_ ?_
  · simp only [evaluate, lookUp, on_bind, on_get, hleft, on_lift_ok]
  · simp only [evaluate, lookUp, on_bind, on_get, hright, on_lift_ok]

/-! ## Comparisons of variables -/

/-- What a label names depends on its key only. -/
theorem Scope.get_congr {s s' : Scope} {label : Label}
    (h : ∀ key ∈ Key.ofLabel? label, s'.get? key = s.get? key) : s'.get label = s.get label := by
  unfold Scope.get
  cases hname : Name.ofLabel label with
  | error f => rfl
  | ok name =>
    simp only [ok_bind]
    rw [h name.key (Name.key_of_ofLabel hname)]

/-- After a run that does not write two variables, a comparison of them ends as before it, with an
answer or an error. -/
theorem on_comparison_of_run {fuel : Nat} {body : List Node} {left right : Label} {sign : String}
    {f : Bool → Bool} (hsign : EqualitySign sign f)
    (hleft : ∀ key ∈ Key.ofLabel? left, key ∉ Node.writtenByAll body)
    (hright : ∀ key ∈ Key.ofLabel? right, key ∉ Node.writtenByAll body) (fuel' : Nat)
    (cls : BinaryClass) :
    ((evaluate fuel' (.binary cls sign (.ident left) (.ident right))).on
      ((executeAll fuel body).on m).2).1
      = ((evaluate fuel' (.binary cls sign (.ident left) (.ident right))).on m).1 := by
  have hwrites := (writesTargets fuel).executeAll body m
  generalize ((executeAll fuel body).on m).2 = m' at hwrites ⊢
  have hl : m'.scope.get left = m.scope.get left :=
    Scope.get_congr fun key hkey => hwrites.other key (hleft key hkey)
  have hr : m'.scope.get right = m.scope.get right :=
    Scope.get_congr fun key hkey => hwrites.other key (hright key hkey)
  rcases fuel' with _ | _ | fuel'
  · rfl
  · rfl
  · simp only [evaluate, on_bind, lookUp, on_get, hl]
    cases m.scope.get left with
    | error _ => rfl
    | ok _ =>
      simp only [on_lift_ok, hr]
      cases m.scope.get right with
      | error _ => rfl
      | ok _ => simp only [on_lift_ok, hsign.apply]

/-! ## The laws -/

/-- Equality is an equivalence of all values but lists and what is no number, `==` and `!=` answer
whether their operands are equal and whether they are not, and values of different variants are never
equal. However a run ends, its values keep their variants, and two of them compare as before it, also
when they are given by other operands; and variables that the run does not write compare as before,
whatever was stored in the arrays that they name. -/
theorem equality_laws :
    (Equivalence fun v w : {v : Value // v.IsComparable} => v.1.equal w.1 = true) ∧
    (∀ (heap : Heap) (v w : Value),
      v.apply heap "==" w = .ok (.bool (v.equal w)) ∧
      v.apply heap "!=" w = .ok (.bool (!v.equal w))) ∧
    (∀ (heap : Heap) (v w : Value), v.variant heap ≠ w.variant heap → v.equal w = false) ∧
    ∀ (fuel : Nat) (body : List Node) (m m' : Machine), ((executeAll fuel body).on m).2 = m' →
      (∀ v, m.heap.Has v → v.variant m'.heap = v.variant m.heap) ∧
      ∀ sign f, EqualitySign sign f →
        (∀ v w r r', Compares m sign v w r → Compares m' sign v w r' →
          ∃ b, r = .ok (.bool b) ∧ r' = .ok (.bool b)) ∧
        ∀ left right : Label, (∀ key ∈ Key.ofLabel? left, key ∉ Node.writtenByAll body) →
          (∀ key ∈ Key.ofLabel? right, key ∉ Node.writtenByAll body) →
          ∀ fuel' cls, ((evaluate fuel' (.binary cls sign (.ident left) (.ident right))).on m').1
            = ((evaluate fuel' (.binary cls sign (.ident left) (.ident right))).on m).1 := by
  refine ⟨Value.equivalence_equal, fun heap v w => ⟨rfl, rfl⟩, fun heap v w hvariant => ?_, ?_⟩
  · rw [← Bool.not_eq_true]
    exact fun hequal => hvariant (Value.variant_eq_of_equal heap hequal)
  · rintro fuel body m _ rfl
    refine ⟨fun v hv => variant_of_run fuel body hv, fun sign f hsign => ⟨?_, ?_⟩⟩
    · intro v w r r' hr hr'
      exact ⟨f (v.equal w), hr.answer hsign, hr'.answer hsign⟩
    · intro left right hleft hright fuel' cls
      exact on_comparison_of_run hsign hleft hright fuel' cls

/-- Declares two arrays with the same elements. -/
def comparedArrays : List Node :=
  [.arrayDecl "a" .int [2] (some [.literal "1" "int", .literal "2" "int"]),
    .arrayDecl "b" .int [2] (some [.literal "1" "int", .literal "2" "int"])]

/-- Stores another element in the first one. -/
def storeInFirst : List Node :=
  [.indexAssign "a" [.literal "0" "int"] (.literal "7" "int")]

/-- Whether they are equal. -/
def arraysCompared : Node :=
  .binary .comparison "==" (.ident "a") (.ident "b")

/-- The arrays are not equal while their elements are the same, and so they stay. -/
theorem equality_laws_sameElements :
    ∃ m m', ((executeAll 5 comparedArrays).on {}).2 = m ∧ ((executeAll 3 storeInFirst).on m).2 = m' ∧
      m.heap = #[.line .int #[.int 1, .int 2], .line .int #[.int 1, .int 2]] ∧
      m'.heap = #[.line .int #[.int 7, .int 2], .line .int #[.int 1, .int 2]] ∧
      ((evaluate 2 arraysCompared).on m).1 = .ok (.bool false) ∧
      ((evaluate 2 arraysCompared).on m').1 = .ok (.bool false) := by
  have hbefore : ((evaluate 2 arraysCompared).on ((executeAll 5 comparedArrays).on {}).2).1
      = .ok (.bool false) := by cbv
  have hruns := equality_laws.2.2.2 3 storeInFirst ((executeAll 5 comparedArrays).on {}).2 _ rfl
  obtain ⟨b, hanswer, hafter⟩ := (hruns.2 "==" id .equal).1 (.array 0) (.array 1) _ _
    (@Compares.variables _ _ _ .comparison "==" "a" "b" (by cbv) (by cbv))
    (@Compares.variables _ _ _ .comparison "==" "a" "b" (by cbv) (by cbv))
  cases hbefore.symm.trans hanswer
  exact ⟨_, _, rfl, rfl, by cbv, by cbv, hbefore, hafter⟩

end MiniAlgol
