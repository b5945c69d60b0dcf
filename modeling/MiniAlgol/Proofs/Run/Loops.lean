import MiniAlgol.Proofs.Run.Failures
import MiniAlgol.Proofs.Run.Primitives
import MiniAlgol.Proofs.Run.Sequencing

/-!
# Loops as conditionals

A loop tests its condition before the first pass and again after each pass, in two places of the
evaluator. Where no condition is recorded, the second test is that of a loop that starts over
(`on_repeatWhile_succ`), so a loop ends exactly where the conditional does that runs the body once
and then the loop again, and it ends alike (`while_iff_unrolled`). Only the fault of a first test
that is no truth value names the statement that it stands in (`SameEnd`).

Each of the two takes other amounts of fuel for the same things, so an end is one that comes about
with some fuel (`Executes`), and more fuel does not change it.
-/

namespace MiniAlgol

open MiniAlgol.Action

/-- With some fuel the statement, run on a machine, ends so. -/
def Executes (n : Node) (m : Machine) (r : Except Fault (Option Value)) (m' : Machine) : Prop :=
  ∃ fuel, (execute fuel n).on m = (r.mapError .fault, m')

/-- The conditional that does a first pass of a loop, if its condition holds, and then runs the
loop. -/
def Node.unrolled (condition body : Node) : Node :=
  .ifStmt condition (.block [body, .whileStmt condition body]) .missing

/-- A loop and the conditional end alike: with one result, or both with the fault that the value of
the condition is no truth value, which names the statement. -/
inductive SameEnd (condition : Node) (m m' : Machine) :
    Except Fault (Option Value) → Except Fault (Option Value) → Prop where
  | same (r : Except Fault (Option Value)) : SameEnd condition m m' r r
  | firstTest {v : Value} {actual shown : String}
      (hv : ∃ fuel, (evaluate fuel condition).on m = (.ok v, m')) :
      SameEnd condition m m' (.error (.notBoolean "while" actual shown v))
        (.error (.notBoolean "if" actual shown v))

section Fuel

variable {m m' : Machine} {fuel : Nat} {condition body : Node}

/-! ## The parts of a loop -/

theorem level_execute (fuel : Nat) (n : Node) (m : Machine) :
    ((execute fuel n).on m).2.level = m.level :=
  ((SameInRuns.inherited.runs fuel).execute n).level_eq m

theorem level_evaluate (fuel : Nat) (n : Node) (m : Machine) :
    ((evaluate fuel n).on m).2.level = m.level :=
  ((SameInRuns.inherited.runs fuel).evaluate n).level_eq m

/-- Below the level of its record, the test after a pass is that before the first one. -/
theorem on_passTest (hlevel : m.level < 3) (v : Value) :
    (passTest v).on m = (requireBool "while" v).on m := by
  rw [passTest, on_bind, on_record, if_neg (by omega)]

theorem requireBool_ok {construct : String} {v : Value} {b : Bool}
    (h : (requireBool construct v).on m = (.ok b, m')) : v = .bool b ∧ m' = m := by
  cases v with
  | bool b' =>
    cases h
    exact ⟨rfl, rfl⟩
  | _ =>
    obtain ⟨actual, m₁, -, h⟩ := on_bind_ok h
    obtain ⟨shown, m₂, -, h⟩ := on_bind_ok h
    cases h

/-- Tests a condition for a construct and does something if it holds. -/
def whenTrue (construct : String) (fuel : Nat) (condition : Node) (x : Action Unit) :
    Action (Option Value) := do
  let v ← evaluate fuel condition
  if ← requireBool construct v then x
  return none

/-- Runs two statements, each with its own fuel. -/
def inTurn (f g : Nat) (x y : Node) : Action Unit := do
  let _ ← execute f x
  let _ ← execute g y

theorem execute_whileStmt_whenTrue (fuel : Nat) (condition body : Node) :
    execute (fuel + 1) (.whileStmt condition body) =
      whenTrue "while" fuel condition (repeatWhile fuel condition body) := by
  simp only [execute, whenTrue]

/-- Below the level of their records, the passes after a test that held are one more pass and then
the loop. -/
theorem on_repeatWhile_succ (hlevel : m.level < 3) (fuel : Nat) (condition body : Node) :
    (repeatWhile (fuel + 1) condition body).on m =
      (inTurn fuel (fuel + 1) body (.whileStmt condition body)).on m := by
  have hbody := level_execute fuel body m
  rw [MiniAlgol.repeatWhile_succ, inTurn, on_bind, on_bind]
  generalize (execute fuel body).on m = e at hbody ⊢
  rcases e with ⟨r, m₁⟩
  cases r with
  | error s => rfl
  | ok _ =>
    have hcondition := level_evaluate fuel condition m₁
    simp only [execute_whileStmt_whenTrue, whenTrue, bind_assoc] at hbody ⊢
    rw [on_bind, on_bind]
    generalize (evaluate fuel condition).on m₁ = e at hcondition ⊢
    rcases e with ⟨r, m₂⟩
    cases r with
    | error s => rfl
    | ok v =>
      simp only at hcondition ⊢
      rw [on_bind, on_bind, on_passTest (by omega)]
      rcases (requireBool "while" v).on m₂ with ⟨r, m₃⟩
      cases r with
      | error s => rfl
      | ok b =>
        cases b with
        | false => rfl
        | true => simp only [↓reduceIte, bind_assoc, pure_bind, bind_pure_unit]

theorem execute_pair (fuel : Nat) (x y : Node) :
    (do let _ ← execute (fuel + 2) (.block [x, y]) : Action Unit) = inTurn fuel fuel x y := by
  simp only [execute, executeAll, forEach, inTurn, bind_assoc, pure_bind]

/-- Two statements in turn that do not lack fuel do the same with more of it. -/
theorem on_inTurn_of_le {f f' g g' : Nat} {x y : Node} (hf : f ≤ f') (hg : g ≤ g')
    (h : ¬(inTurn f g x y).Starves m) : (inTurn f' g' x y).on m = (inTurn f g x y).on m := by
  have hx : ¬(execute f x).Starves m := fun hx => h (hx.bind _)
  rw [inTurn, Starves, on_bind] at h
  rw [inTurn, inTurn, on_bind, on_bind, execute_of_le hf hx]
  rcases hon : (execute f x).on m with ⟨r, m₁⟩
  rw [hon] at h
  cases r with
  | error s => rfl
  | ok _ =>
    have hy : ¬(execute g y).Starves m₁ := fun hy => h (hy.bind _)
    simp only
    rw [on_bind, on_bind, execute_of_le hg hy]

/-- What a loop does once its condition holds, the block in its conditional does with more fuel. -/
theorem on_pair_of_repeatWhile (hlevel : m.level < 3)
    (h : ¬(repeatWhile fuel condition body).Starves m) :
    (do let _ ← execute (fuel + 2) (.block [body, .whileStmt condition body]) : Action Unit).on m
      = (repeatWhile fuel condition body).on m := by
  cases fuel with
  | zero => exact absurd rfl h
  | succ fuel =>
    rw [Starves, on_repeatWhile_succ hlevel] at h
    rw [execute_pair, on_repeatWhile_succ hlevel, on_inTurn_of_le (Nat.le_succ fuel) le_rfl h]

/-- What the block does, the loop does with the same fuel. -/
theorem on_repeatWhile_of_pair (hlevel : m.level < 3)
    (h : ¬(do let _ ← execute fuel (.block [body, .whileStmt condition body]) :
      Action Unit).Starves m) :
    (repeatWhile fuel condition body).on m
      = (do let _ ← execute fuel (.block [body, .whileStmt condition body]) : Action Unit).on m := by
  match fuel with
  | 0 | 1 => exact absurd rfl h
  | fuel + 2 =>
    rw [execute_pair] at h
    rw [execute_pair, on_repeatWhile_succ hlevel,
      on_inTurn_of_le (Nat.le_succ fuel) (by omega : fuel ≤ fuel + 1 + 1) h]

/-! ## Tests -/

/-- Below the level of its record, the test of the conditional is one of the condition for `if`. -/
theorem on_unrolled (hlevel : m.level < 3) (fuel : Nat) (condition body : Node) :
    (execute (fuel + 1) (.unrolled condition body)).on m =
      (whenTrue "if" fuel condition
        (do let _ ← execute fuel (.block [body, .whileStmt condition body]))).on m := by
  have hcondition := level_evaluate fuel condition m
  rw [Node.unrolled, execute, whenTrue, on_bind, on_bind]
  generalize (evaluate fuel condition).on m = e at hcondition ⊢
  rcases e with ⟨r, m₁⟩
  cases r with
  | error s => rfl
  | ok v =>
    simp only at hcondition ⊢
    rw [on_bind, on_bind]
    rcases htest : (requireBool "if" v).on m₁ with ⟨r, m₂⟩
    cases r with
    | error s => rfl
    | ok b =>
      obtain ⟨rfl, rfl⟩ := requireBool_ok htest
      simp only
      rw [on_bind, on_record, if_neg (by omega)]
      cases b with
      | false => rfl
      | true => simp only [↓reduceIte, bind_assoc, pure_bind]

/-- Tests of one condition for two constructs end alike if what they do once it holds does. -/
theorem on_whenTrue {construct : String} (construct' : String) {f g : Nat} {x y : Action Unit}
    {r : Except Fault (Option Value)} (hfg : f ≤ g)
    (hxy : ∀ m₁ : Machine, m₁.level = m.level → ¬x.Starves m₁ → y.on m₁ = x.on m₁)
    (h : (whenTrue construct f condition x).on m = (r.mapError .fault, m')) :
    (whenTrue construct' g condition y).on m = (r.mapError .fault, m') ∨
      ∃ v actual shown, (evaluate f condition).on m = (.ok v, m') ∧
        r = .error (.notBoolean construct actual shown v) ∧
        (whenTrue construct' g condition y).on m =
          (.error (.fault (.notBoolean construct' actual shown v)), m') := by
  have hends : ¬(whenTrue construct f condition x).Starves m := not_starves h
  have hcondition : ¬(evaluate f condition).Starves m := fun hc => hends (hc.bind _)
  have hlevel := level_evaluate f condition m
  rw [whenTrue, Starves, on_bind] at hends
  rw [whenTrue, on_bind] at h
  rw [whenTrue, on_bind, evaluate_of_le hfg hcondition]
  generalize (evaluate f condition).on m = e at h hends hlevel ⊢
  rcases e with ⟨e, m₁⟩
  cases e with
  | error s => exact .inl h
  | ok v =>
    simp only at h hends hlevel ⊢
    cases hv : v.hasTag .bool with
    | true =>
      left
      cases v with
      | bool b =>
        simp only [requireBool, pure_bind] at h hends ⊢
        cases b with
        | false => exact h
        | true =>
          have hx : ¬x.Starves m₁ := fun hx => hends (hx.bind _)
          simp only [↓reduceIte, on_bind] at h ⊢
          rw [hxy m₁ hlevel hx]
          exact h
      | _ => cases hv
    | false =>
      -- the value and its type are shown in the message, and may be what cannot be; then no construct
      -- is named
      rw [on_bind, on_requireBool_other hv] at h
      rw [on_bind, on_requireBool_other hv]
      cases htext : v.plainText m₁.heap with
      | error fault =>
        rw [htext] at h
        exact .inl h
      | ok shown =>
        rw [htext] at h
        simp only [on_refuseCondition] at h ⊢
        cases hname : v.typeName m₁.heap with
        | error fault =>
          rw [hname] at h
          exact .inl h
        | ok actual =>
          rw [hname] at h
          right
          obtain ⟨hr, rfl⟩ := Prod.mk.inj h
          cases r with
          | ok _ => cases hr
          | error _ =>
            cases hr
            exact ⟨v, actual, shown, rfl, rfl, rfl⟩

/-! ## Whole loops -/

theorem Executes.unrolled {r : Except Fault (Option Value)} (hlevel : m.level < 3)
    (h : Executes (.whileStmt condition body) m r m') :
    ∃ r', SameEnd condition m m' r r' ∧ Executes (.unrolled condition body) m r' m' := by
  obtain ⟨fuel, h⟩ := h
  cases fuel with
  | zero => exact absurd rfl (not_starves h)
  | succ fuel =>
    have hpasses : ∀ m₁ : Machine, m₁.level = m.level →
        ¬(repeatWhile fuel condition body).Starves m₁ →
        (do let _ ← execute (fuel + 2) (.block [body, .whileStmt condition body]) :
          Action Unit).on m₁ = (repeatWhile fuel condition body).on m₁ :=
      fun m₁ hsame hends => on_pair_of_repeatWhile (by omega) hends
    rw [execute_whileStmt_whenTrue] at h
    rcases on_whenTrue "if" (by omega : fuel ≤ fuel + 2) hpasses h with
      hon | ⟨v, actual, shown, hv, rfl, hon⟩
    · exact ⟨r, .same r, fuel + 3, by rw [on_unrolled hlevel, hon]⟩
    · exact ⟨_, .firstTest ⟨fuel, hv⟩, fuel + 3, by rw [on_unrolled hlevel, hon]; rfl⟩

theorem Executes.rolled {r' : Except Fault (Option Value)} (hlevel : m.level < 3)
    (h : Executes (.unrolled condition body) m r' m') :
    ∃ r, SameEnd condition m m' r r' ∧ Executes (.whileStmt condition body) m r m' := by
  obtain ⟨fuel, h⟩ := h
  cases fuel with
  | zero => exact absurd rfl (not_starves h)
  | succ fuel =>
    have hpasses : ∀ m₁ : Machine, m₁.level = m.level →
        ¬(do let _ ← execute fuel (.block [body, .whileStmt condition body]) :
          Action Unit).Starves m₁ →
        (repeatWhile fuel condition body).on m₁ =
          (do let _ ← execute fuel (.block [body, .whileStmt condition body]) :
            Action Unit).on m₁ :=
      fun m₁ hsame hends => on_repeatWhile_of_pair (by omega) hends
    rw [on_unrolled hlevel] at h
    rcases on_whenTrue "while" le_rfl hpasses h with
      hon | ⟨v, actual, shown, hv, rfl, hon⟩
    · exact ⟨r', .same r', fuel + 1, by rw [execute_whileStmt_whenTrue, hon]⟩
    · exact ⟨_, .firstTest ⟨fuel, hv⟩, fuel + 1, by rw [execute_whileStmt_whenTrue, hon]; rfl⟩

/-- When the passes of a loop are over, its condition, if it has no call, is false. -/
theorem condition_of_repeatWhile (hcall : condition.hasCall = false) (hlevel : m.level < 3)
    (h : (repeatWhile fuel condition body).on m = (.ok (), m')) :
    ∃ f, (evaluate f condition).on m' = (.ok (.bool false), m') := by
  induction fuel generalizing m with
  | zero => cases h
  | succ fuel ih =>
    rw [MiniAlgol.repeatWhile_succ] at h
    obtain ⟨result, m₁, hbody, htest⟩ := on_bind_ok h
    obtain ⟨v, m₂, hv, hpass⟩ := on_bind_ok htest
    obtain ⟨b, m₃, hb, hrest⟩ := on_bind_ok hpass
    have hlevel₁ := level_execute fuel body m
    -- the test changes nothing, so the machine where it failed is the one where the loop ends
    have hstill := stillBelow_evaluate (le_refl 3) hcall fuel m₁
    rw [hbody] at hlevel₁
    rw [hv] at hstill
    simp only at hlevel₁ hstill
    obtain rfl := hstill (by omega)
    rw [on_passTest (by omega)] at hb
    obtain ⟨rfl, rfl⟩ := requireBool_ok hb
    cases b with
    | true => exact ih (by omega) hrest
    | false =>
      cases hrest
      exact ⟨fuel, hv⟩

theorem Executes.condition_eq_false {result : Option Value} (hcall : condition.hasCall = false)
    (hlevel : m.level < 3) (h : Executes (.whileStmt condition body) m (.ok result) m') :
    ∃ f, (evaluate f condition).on m' = (.ok (.bool false), m') := by
  obtain ⟨fuel, h⟩ := h
  cases fuel with
  | zero => cases h
  | succ fuel =>
    rw [execute_whileStmt_whenTrue] at h
    obtain ⟨v, m₁, hv, htest⟩ := on_bind_ok h
    obtain ⟨b, m₂, hb, hrest⟩ := on_bind_ok htest
    have hstill := stillBelow_evaluate (le_refl 3) hcall fuel m hlevel
    rw [hv] at hstill
    simp only at hstill
    subst hstill
    obtain ⟨rfl, rfl⟩ := requireBool_ok hb
    cases b with
    | true =>
      obtain ⟨_, m₃, hpasses, hdone⟩ := on_bind_ok hrest
      cases hdone
      exact condition_of_repeatWhile hcall hlevel hpasses
    | false =>
      cases hrest
      exact ⟨fuel, hv⟩

/-- A loop ends exactly where the conditional does that runs its body once and then the loop again,
and leaves the same machine with the same result; if the value of the condition is no truth value at
the first test, both are faults that say so for their own construct. Where the loop has ended with a
result, a condition without calls is false. -/
theorem while_iff_unrolled (hlevel : m.level < 3) (condition body : Node) :
    (∀ r m', Executes (.whileStmt condition body) m r m' →
      ∃ r', SameEnd condition m m' r r' ∧ Executes (.unrolled condition body) m r' m') ∧
    (∀ r' m', Executes (.unrolled condition body) m r' m' →
      ∃ r, SameEnd condition m m' r r' ∧ Executes (.whileStmt condition body) m r m') ∧
    ∀ result m', Executes (.whileStmt condition body) m (.ok result) m' →
      condition.hasCall = false →
      ∃ enough, ∀ fuel ≥ enough, (evaluate fuel condition).on m' = (.ok (.bool false), m') := by
  refine ⟨fun r m' h => h.unrolled hlevel, fun r' m' h => h.rolled hlevel, ?_⟩
  intro result m' h hcall
  obtain ⟨f, hfalse⟩ := h.condition_eq_false hcall hlevel
  refine ⟨f, fun fuel hfuel => ?_⟩
  rw [evaluate_of_le hfuel (not_starves (r := .ok (.bool false)) hfalse), hfalse]

/-- Whether `n` is below two, and a block that counts it up. -/
def belowTwo : Node := .binary .comparison "<" (.ident "n") (.literal "2" "int")

def countUp : Node := .block [.assign "n" (.binary .additive "+" (.ident "n") (.literal "1" "int"))]

theorem while_iff_unrolled_countUp :
    let start : Machine := { scope := Scope.builtins.set (Name.ofWord "n") (.int 0) }
    ∃ m', Executes (.whileStmt belowTwo countUp) start (.ok none) m' ∧
      Executes (.unrolled belowTwo countUp) start (.ok none) m' ∧
      m'.scope.get "n" = .ok (.int 2) ∧
      ∃ fuel, (evaluate fuel belowTwo).on m' = (.ok (.bool false), m') := by
  intro start
  have hends : ((execute 8 (.whileStmt belowTwo countUp)).on start).1 = .ok none := rfl
  have htwo : ((execute 8 (.whileStmt belowTwo countUp)).on start).2.scope.get "n"
      = .ok (.int 2) := rfl
  obtain ⟨hunrolled, -, hfalse⟩ :=
    while_iff_unrolled (show start.level < 3 by decide) belowTwo countUp
  generalize hm : ((execute 8 (.whileStmt belowTwo countUp)).on start).2 = m' at htwo
  have hwhile : Executes (.whileStmt belowTwo countUp) start (.ok none) m' :=
    ⟨8, Prod.ext hends hm⟩
  obtain ⟨r', hsame, hunrolled⟩ := hunrolled _ m' hwhile
  cases hsame
  obtain ⟨enough, hcondition⟩ := hfalse none m' hwhile rfl
  exact ⟨m', hwhile, hunrolled, htwo, enough, hcondition enough le_rfl⟩

end Fuel

end MiniAlgol
