import MiniAlgol.Proofs.Run.Balance
import MiniAlgol.Proofs.Run.Reached

/-!
# Programs that end

A program without loops, in which every argument of a call is a literal or a calculation, ends, and
never has more calls open than declarations of routines are nested in it (`runProgram_terminates`).

No routine can call itself there. A routine sees nothing of its caller, and is handed neither a
routine nor an array that could hold one; so all the routines that a call comes to are declared
within its body. This is the invariant `shallow`: a run with so many levels of declarations left
holds routines with fewer levels only, and a call starts one with fewer.
-/

namespace MiniAlgol

open MiniAlgol.Action Simulation

/-! ## Straight programs -/

namespace Node

/-- Whether the value of an expression is calculated, so that it is neither a routine nor an
array. -/
def isCalculated : Node → Bool
  | literal .. | binary .. => true
  | _ => false

mutual

/-- Whether there is no loop within the node, and only calculated values are handed to calls. -/
def isStraight : Node → Bool
  | missing | literal .. | ident _ => true
  | program body | block body | routineDecl _ _ _ body => allStraight body
  | varDecl _ _ value | assign _ value | returnStmt value | exprStmt value => value.isStraight
  | arrayDecl _ _ _ none => true
  | arrayDecl _ _ _ (some elements) => allStraight elements
  | indexAssign _ indices value => allStraight indices && value.isStraight
  | ifStmt condition x y => condition.isStraight && x.isStraight && y.isStraight
  | whileStmt .. => false
  | binary _ _ x y => x.isStraight && y.isStraight
  | arrayAccess _ indices => allStraight indices
  | call _ args => args.all isCalculated && allStraight args

def allStraight : List Node → Bool
  | [] => true
  | n :: rest => n.isStraight && allStraight rest

end

mutual

/-- How deep declarations of routines are nested within the node. -/
def nesting : Node → Nat
  | missing | literal .. | ident _ => 0
  | program body | block body => deepest body
  | routineDecl _ _ _ body => deepest body + 1
  | varDecl _ _ value | assign _ value | returnStmt value | exprStmt value => value.nesting
  | arrayDecl _ _ _ none => 0
  | arrayDecl _ _ _ (some elements) => deepest elements
  | indexAssign _ indices value => max (deepest indices) value.nesting
  | ifStmt condition x y => max condition.nesting (max x.nesting y.nesting)
  | whileStmt condition x => max condition.nesting x.nesting
  | binary _ _ x y => max x.nesting y.nesting
  | arrayAccess _ indices => deepest indices
  | call _ args => deepest args

def deepest : List Node → Nat
  | [] => 0
  | n :: rest => max n.nesting (deepest rest)

end

variable {n e : Node} {body : List Node}

theorem allStraight_iff : allStraight body = true ↔ ∀ n ∈ body, n.isStraight := by
  induction body with
  | nil => simp [allStraight]
  | cons n rest ih => simp [allStraight, ih]

theorem nesting_le_deepest (hn : n ∈ body) : n.nesting ≤ deepest body := by
  induction body with
  | nil => cases hn
  | cons m rest ih =>
    rw [deepest]
    rcases List.mem_cons.1 hn with rfl | hn
    · exact Nat.le_max_left _ _
    · exact Nat.le_trans (ih hn) (Nat.le_max_right _ _)

/-- A part of a straight node, which is straight and smaller and has no deeper declarations. -/
structure Inside (e n : Node) : Prop where
  straight : e.isStraight
  nesting_le : e.nesting ≤ n.nesting
  sizeOf_lt : sizeOf e < sizeOf n

theorem inside_of_mem (hbody : allStraight body) (he : e ∈ body) (hdeep : deepest body ≤ n.nesting)
    (hsize : sizeOf body < sizeOf n) : Inside e n :=
  ⟨allStraight_iff.1 hbody e he, Nat.le_trans (nesting_le_deepest he) hdeep,
    Nat.lt_trans (List.sizeOf_lt_of_mem he) hsize⟩

theorem inside_of_mem_expressions (hn : n.isStraight) (he : e ∈ n.expressions) : Inside e n := by
  cases n with
  | varDecl tag name init =>
    simp only [expressions] at he
    split at he
    · cases he
    · obtain rfl := List.mem_singleton.1 he
      exact ⟨hn, Nat.le_refl _, by simp⟩
  | arrayDecl name elem extents init =>
    cases init with
    | none => cases he
    | some elements => exact inside_of_mem hn he (Nat.le_refl _) (by simp; omega)
  | assign | returnStmt | exprStmt =>
    obtain rfl := List.mem_singleton.1 he
    exact ⟨hn, Nat.le_refl _, by simp⟩
  | indexAssign name indices value =>
    rw [isStraight, Bool.and_eq_true] at hn
    rcases List.mem_cons.1 he with rfl | he
    · exact ⟨hn.2, Nat.le_max_right _ _, by simp⟩
    · exact inside_of_mem hn.1 he (Nat.le_max_left _ _) (by simp; omega)
  | ifStmt condition x y =>
    simp only [isStraight, Bool.and_eq_true] at hn
    obtain rfl := List.mem_singleton.1 he
    exact ⟨hn.1.1, Nat.le_max_left _ _, by simp; omega⟩
  | whileStmt => cases hn
  | binary cls op x y =>
    rw [isStraight, Bool.and_eq_true] at hn
    rcases List.mem_pair.1 he with rfl | rfl
    · exact ⟨hn.1, Nat.le_max_left _ _, by simp; omega⟩
    · exact ⟨hn.2, Nat.le_max_right _ _, by simp⟩
  | arrayAccess name indices => exact inside_of_mem hn he (Nat.le_refl _) (by simp)
  | call name args =>
    rw [isStraight, Bool.and_eq_true] at hn
    exact inside_of_mem hn.2 he (Nat.le_refl _) (by simp)
  | _ => cases he

theorem inside_of_mem_statements (hn : n.isStraight) (he : e ∈ n.statements) : Inside e n := by
  cases n with
  | block body => exact inside_of_mem hn he (Nat.le_refl _) (by simp)
  | ifStmt condition x y =>
    simp only [isStraight, Bool.and_eq_true] at hn
    have hx : Inside x (ifStmt condition x y) :=
      ⟨hn.1.2, Nat.le_trans (Nat.le_max_left _ _) (Nat.le_max_right _ _), by simp; omega⟩
    have hy : Inside y (ifStmt condition x y) :=
      ⟨hn.2, Nat.le_trans (Nat.le_max_right _ _) (Nat.le_max_right _ _), by simp⟩
    simp only [statements] at he
    split at he
    · exact List.mem_singleton.1 he ▸ hx
    · rcases List.mem_pair.1 he with rfl | rfl
      · exact hx
      · exact hy
  | whileStmt => cases hn
  | _ => cases he

end Node

/-! ## The invariant -/

/-- A statement that may run with so many levels of declarations left. -/
structure Node.Shallow (depth size : Nat) (n : Node) : Prop where
  straight : n.isStraight
  nesting_le : n.nesting ≤ depth
  size_le : sizeOf n ≤ size

/-- A routine whose body has fewer levels. -/
structure Routine.Shallow (depth size : Nat) (r : Routine) : Prop where
  straight : Node.allStraight r.body
  deepest_lt : Node.deepest r.body < depth
  size_le : sizeOf r.body ≤ size

/-- Such a routine, or an array from some address on. -/
def Value.Shallow (base depth size : Nat) : Value → Prop
  | .array a => base ≤ a
  | .routine _ r => r.Shallow depth size
  | _ => True

/-- The invariant of an activation with so many levels of declarations left, which holds arrays
from some address on. -/
def shallow (base depth size : Nat) : Invariant where
  expression n := n.isStraight
  statement := Node.Shallow depth size
  routine := Routine.Shallow depth size
  address _ a := base ≤ a
  heap h := base ≤ h.size ∧
    ∀ {a x v}, base ≤ a → h[a]? = some x → v ∈ x.elements → v.Shallow base depth size
  fault _ _ := True
  address_grows _ ha := ha

section Invariant

variable {base depth size : Nat} {h : Heap} {n e : Node} {r : Routine} {v : Value}

theorem shallow_value : (shallow base depth size).value h v ↔ v.Shallow base depth size := by
  cases v <;> exact Iff.rfl

theorem Node.Shallow.part (hn : n.Shallow depth size) (he : Inside e n) : e.Shallow depth size where
  straight := he.straight
  nesting_le := Nat.le_trans he.nesting_le hn.nesting_le
  size_le := Nat.le_trans (Nat.le_of_lt he.sizeOf_lt) hn.size_le

/-- The statements of a body with no more levels than are left. -/
theorem Node.shallow_of_mem {body : List Node} (hbody : allStraight body)
    (hdeep : deepest body ≤ depth) (hsize : sizeOf body ≤ size) (hn : n ∈ body) :
    n.Shallow depth size where
  straight := allStraight_iff.1 hbody n hn
  nesting_le := Nat.le_trans (nesting_le_deepest hn) hdeep
  size_le := Nat.le_trans (Nat.le_of_lt (List.sizeOf_lt_of_mem hn)) hsize

theorem shallow_kept : (shallow base depth size).Kept where
  expression_parts hn _ he := (Node.inside_of_mem_expressions hn he).straight
  statement_expressions hn _ he := (Node.inside_of_mem_expressions hn.straight he).straight
  statement_parts hn _ hs := hn.part (Node.inside_of_mem_statements hn.straight hs)
  routine_body hr _ hs :=
    Node.shallow_of_mem hr.straight (Nat.le_of_lt hr.deepest_lt) hr.size_le hs
  declared hn := by
    refine ⟨hn.straight, hn.nesting_le, Nat.le_trans (Nat.le_of_lt ?_) hn.size_le⟩
    simp
  element hh ha hx hv := shallow_value.2 (hh.2 ha hx hv)
  push := by
    intro h name elem extents init x hh _ hx
    refine ⟨⟨?_, fun {a y v} ha hy hv => ?_⟩, hh.1⟩
    · rw [Array.size_push]
      exact Nat.le_trans hh.1 (Nat.le_succ _)
    · exact Heap.elements_push (P := fun a _ v => base ≤ a → v.Shallow base depth size)
        (fun hy hv ha => hh.2 ha hy hv) hx (fun _ _ _ => trivial) hy hv ha
  put := by
    intro h a x x' i j v hh ha hx hv _ hput
    refine ⟨?_, fun {b y u} hb hy hu => ?_⟩
    · rw [Array.size_setIfInBounds]
      exact hh.1
    · exact Heap.elements_put (P := fun a _ v => base ≤ a → v.Shallow base depth size)
        (fun hy hu hb => hh.2 hb hy hu) hx (fun _ => shallow_value.1 hv) hput hy hu hb

/-- No fault is forbidden. -/
theorem shallow_allows : (shallow base depth size).Allows :=
  Invariant.allows_of_fault trivial

theorem shallow_lawful : (shallow base depth size).simulation.Lawful :=
  (shallow_kept.primitive shallow_allows).lawful

theorem shallow_agrees (fuel : Nat) : (shallow base depth size).simulation.AgreesAt fuel fuel :=
  shallow_lawful.agrees (.inl rfl)

/-- An activation holds no array at its start when its arguments are calculated. -/
theorem shallow_start {params : List Label} {args : List Value} {start : Scope} {m : Machine}
    (hargs : ∀ v ∈ args, v.isScalar) (hstart : Scope.ofArguments params args = .ok start) :
    (shallow m.heap.size depth size).Holds { m with scope := start } where
  heap := by
    refine ⟨Nat.le_refl _, fun {a x v} ha hx => ?_⟩
    have hlt := (Array.getElem?_eq_some_iff.1 hx).1
    exact absurd ha (Nat.not_le_of_lt hlt)
  scope := by
    have hrel := Scope.ofArguments_related (R := (shallow m.heap.size depth size).both m.heap)
      params (List.forall₂_same.2 fun v hv => ⟨rfl, Invariant.value_of_isScalar (hargs v hv)⟩)
    rcases hrel with ⟨f, -, hfail, -⟩ | ⟨s, s', hs, hs', hrel⟩
    · rw [hstart] at hfail
      cases hfail
    · rw [hstart] at hs hs'
      cases hs
      cases hs'
      exact hrel

end Invariant

/-! ## Calculated values -/

theorem isScalar_of_evaluate {fuel : Nat} {n : Node} {m m' : Machine} {v : Value}
    (hn : n.isCalculated) (h : (evaluate fuel n).on m = (.ok v, m')) : v.isScalar := by
  cases fuel with
  | zero => cases h
  | succ fuel =>
    cases n with
    | literal text kind =>
      rw [evaluate] at h
      cases hv : literalValue text kind with
      | error f =>
        rw [hv] at h
        cases h
      | ok v =>
        rw [hv] at h
        cases h
        exact literalValue_ok hv
    | binary cls op x y =>
      simp only [evaluate] at h
      obtain ⟨a, m₁, -, h⟩ := on_bind_ok h
      obtain ⟨b, m₂, -, h⟩ := on_bind_ok h
      obtain ⟨m₃, m₄, -, h⟩ := on_bind_ok h
      cases hv : a.apply m₃.heap op b with
      | error f =>
        rw [hv] at h
        cases h
      | ok v =>
        rw [hv] at h
        cases h
        exact Value.apply_ok hv
    | _ => cases hn

theorem isScalar_of_collect {fuel : Nat} {args : List Node} {m m' : Machine} {vs : List Value}
    (hargs : ∀ n ∈ args, n.isCalculated) (h : (collect (evaluate fuel) args).on m = (.ok vs, m')) :
    ∀ v ∈ vs, v.isScalar := by
  induction args generalizing m vs with
  | nil =>
    cases h
    exact nofun
  | cons n rest ih =>
    obtain ⟨v, m₁, hv, h⟩ := on_bind_ok h
    obtain ⟨rest', m₂, hrest, h⟩ := on_bind_ok h
    cases h
    exact List.forall_mem_cons.2 ⟨isScalar_of_evaluate (hargs n List.mem_cons_self) hv,
      ih (fun e he => hargs e (List.mem_cons_of_mem n he)) hrest⟩

/-! ## Tasks with enough fuel -/

/-- The machine of an activation with so many levels left, below which the calls are open that the
limit allows. -/
structure AtDepth (limit base depth size : Nat) (m : Machine) : Prop where
  holds : (shallow base depth size).Holds m
  calls_le : m.calls.length + depth ≤ limit

/-- The fuel for calls when so many levels are left. -/
def reserve (depth size : Nat) : Nat :=
  depth * (size + 1)

/-- The task may run on the machine, and has enough fuel. -/
inductive Task.Ready (limit size : Nat) : Task → Machine → Prop where
  | evaluate {base depth f n m} (hm : AtDepth limit base depth size m) (hn : n.isStraight)
      (hf : sizeOf n + reserve depth size < f) : Ready limit size (.evaluate f n) m
  | execute {base depth f n m} (hm : AtDepth limit base depth size m) (hn : n.Shallow depth size)
      (hf : sizeOf n + reserve depth size < f) : Ready limit size (.execute f n) m
  | executeAll {base depth f body m} (hm : AtDepth limit base depth size m)
      (hbody : ∀ n ∈ body, n.Shallow depth size)
      (hf : sizeOf body + reserve depth size < f) : Ready limit size (.executeAll f body) m
  | fillFrom {base depth f name address elements count m} {index : Nat}
      (hm : AtDepth limit base depth size m) (haddress : base ≤ address)
      (hroom : (shallow base depth size).simulation.room m.heap address address count)
      (hcount : (index + elements.length : Int) ≤ count)
      (helements : ∀ e ∈ elements, e.isStraight)
      (hf : sizeOf elements + reserve depth size < f) :
      Ready limit size (.fillFrom f name address index elements) m
  | invoke {base depth f name args m} (hm : AtDepth limit base depth size m)
      (hargs : ∀ v ∈ args, v.isScalar) (hf : reserve depth size < f) :
      Ready limit size (.invoke f name args) m
  | opened {depth f r args start m} (hcalls : m.calls.length + depth ≤ limit)
      (hbody : ∀ n ∈ r.body, n.Shallow depth size) (hargs : ∀ v ∈ args, v.isScalar)
      (hstart : Scope.ofArguments r.params args = .ok start)
      (hf : sizeOf r.body + reserve depth size < f) :
      Ready limit size (.opened f r args start) m

section Ready

variable {limit base depth size : Nat} {m m' : Machine} {t t' : Task} {α : Type}

theorem Task.Ready.fuel_pos (h : t.Ready limit size m) : 0 < t.fuel := by
  cases h <;> simp only [fuel] <;> omega

theorem Task.Ready.calls_le (h : t.Ready limit size m) : m.calls.length ≤ limit := by
  cases h with
  | opened hcalls => omega
  | evaluate hm | execute hm | executeAll hm | fillFrom hm | invoke hm =>
    have := hm.calls_le
    omega

/-- An action of the activation leaves it as it should be. -/
theorem AtDepth.after (hm : AtDepth limit base depth size m) {x : Action α}
    {Q : Heap → α → α → Prop} (hx : (shallow base depth size).simulation.Agrees m.heap x x Q)
    (hbalanced : Balanced x) {a : α} (h : x.on m = (.ok a, m')) :
    AtDepth limit base depth size m' ∧ Q m'.heap a a ∧ Heap.Grows m.heap m'.heap := by
  obtain ⟨hholds, hpost, hg⟩ := Invariant.after hm.holds hx h
  have hcalls := hbalanced m
  rw [h] at hcalls
  cases hcalls with
  | closed _ hcalls => exact ⟨⟨hholds, hcalls ▸ hm.calls_le⟩, hpost, hg⟩

/-! ## What a task starts -/

theorem balanced_locateTarget (f : Nat) (name : Label) (indices : List Node) :
    Balanced (locateTarget f name indices) :=
  balanced_bind (inherited_balanced.lookUp name) fun _ =>
    balanced_bind (inherited_balanced.collect (inherited_balanced.runs f).evaluate indices) fun _ =>
      inherited_balanced.pure _

theorem balanced_testIf (f : Nat) (condition : Node) : Balanced (testIf f condition) :=
  balanced_bind ((inherited_balanced.runs f).evaluate condition) fun _ =>
    balanced_bind (inherited_balanced.requireBool _ _) fun _ =>
      balanced_bind (keepsCalls_record _ _).balanced fun _ => inherited_balanced.pure _

theorem balanced_declareArray (name : Label) (elem : Tag) (extents : List Int) (count : Nat) :
    Balanced (declareArray name elem extents count) :=
  have H := inherited_balanced
  balanced_bind (balanced_bind (keepsCalls_lift _).balanced H.allocate) fun _ =>
    balanced_bind (H.bindName _ _) fun _ =>
      balanced_bind (H.checkRoom name _ _) fun _ => H.pure _

/-- A part of what runs has enough fuel for its turn. -/
theorem Node.Inside.evaluate {e n : Node} {f : Nat} (he : Node.Inside e n)
    (hm : AtDepth limit base depth size m) (hf : sizeOf n + reserve depth size < f + 1) :
    (Task.evaluate f e).Ready limit size m := by
  have := he.sizeOf_lt
  exact .evaluate hm he.straight (by omega)

theorem Node.Inside.execute {s n : Node} {f : Nat} (hs : Node.Inside s n)
    (hn : n.Shallow depth size) (hm : AtDepth limit base depth size m)
    (hf : sizeOf n + reserve depth size < f + 1) :
    (Task.execute f s).Ready limit size m := by
  have := hs.sizeOf_lt
  exact .execute hm (hn.part hs) (by omega)

theorem AtDepth.comes_of_evaluate {f : Nat} {n : Node} (hm : AtDepth limit base depth size m)
    (hn : n.isStraight) (hf : sizeOf n + reserve depth size < f)
    (h : (Task.evaluate f n).Comes m t' m') : t'.Ready limit size m' := by
  have hparts : ∀ e ∈ n.expressions, Node.Inside e n := fun e he =>
    Node.inside_of_mem_expressions hn he
  cases h with
  | @left f cls op x y => exact (hparts x List.mem_cons_self).evaluate hm hf
  | @right f cls op x y m m' v h =>
    have hx := hparts x List.mem_cons_self
    have hm' := (hm.after ((shallow_agrees f).evaluate hx.straight)
      ((inherited_balanced.runs f).evaluate x) h).1
    exact (hparts y (List.mem_cons_of_mem _ List.mem_cons_self)).evaluate hm' hf
  | @index f name before e after m m' found h =>
    have hm' := (hm.after (locateTarget_agrees shallow_lawful (shallow_agrees f) (.inl hn) rfl
      fun c hc => (hparts c (List.mem_append_left _ hc)).straight)
      (balanced_locateTarget f name before) h).1
    exact (hparts e (List.mem_append_right _ List.mem_cons_self)).evaluate hm' hf
  | @argument f name before e after m m' vs h =>
    have hm' := (hm.after (Agrees.collect before fun c hc =>
        (shallow_agrees f).evaluate (hparts c (List.mem_append_left _ hc)).straight)
      (inherited_balanced.collect (inherited_balanced.runs f).evaluate before) h).1
    exact (hparts e (List.mem_append_right _ List.mem_cons_self)).evaluate hm' hf
  | @invocation f name args m m' vs h =>
    have hm' := (hm.after (Agrees.collect args fun c hc =>
        (shallow_agrees f).evaluate (hparts c hc).straight)
      (inherited_balanced.collect (inherited_balanced.runs f).evaluate args) h).1
    rw [Node.isStraight, Bool.and_eq_true, List.all_eq_true] at hn
    exact .invoke hm' (isScalar_of_collect hn.1 h) (by simp at hf; omega)

theorem AtDepth.comes_of_execute {f : Nat} {n : Node} (hm : AtDepth limit base depth size m)
    (hn : n.Shallow depth size) (hf : sizeOf n + reserve depth size < f)
    (h : (Task.execute f n).Comes m t' m') : t'.Ready limit size m' := by
  have hexprs : ∀ e ∈ n.expressions, Node.Inside e n := fun e he =>
    Node.inside_of_mem_expressions hn.straight he
  have hstmts : ∀ s ∈ n.statements, Node.Inside s n := fun s hs =>
    Node.inside_of_mem_statements hn.straight hs
  cases h with
  | @initial f tag name init m hinit =>
    refine (hexprs init ?_).evaluate hm hf
    simp [Node.expressions, hinit]
  | assigned | ifCondition | returned | expression =>
    exact (hexprs _ List.mem_cons_self).evaluate hm hf
  | @elements f name elem extents elements m m' address h =>
    obtain ⟨hm', ⟨haddress, hroom⟩, -⟩ := hm.after (declareArray_agrees shallow_lawful hn)
      (balanced_declareArray name elem extents elements.length) h
    refine .fillFrom hm' haddress.2 hroom (by simp) (fun e he => (hexprs e he).straight) ?_
    simp at hf
    omega
  | @targetIndex f name before e after value m m' found h =>
    have hm' := (hm.after (locateTarget_agrees shallow_lawful (shallow_agrees f) (.inr hn) rfl
      fun c hc => (hexprs c (List.mem_cons_of_mem _ (List.mem_append_left _ hc))).straight)
      (balanced_locateTarget f name before) h).1
    exact (hexprs e (List.mem_cons_of_mem _ (List.mem_append_right _ List.mem_cons_self))).evaluate
      hm' hf
  | @stored f name indices value m m' found h =>
    have hm' := (hm.after (locateTarget_agrees shallow_lawful (shallow_agrees f) (.inr hn) rfl
      fun c hc => (hexprs c (List.mem_cons_of_mem _ hc)).straight)
      (balanced_locateTarget f name indices) h).1
    exact (hexprs value List.mem_cons_self).evaluate hm' hf
  | @block f body m =>
    refine .executeAll hm (fun s hs => hn.part (hstmts s hs)) ?_
    simp at hf
    omega
  | @thenBranch f condition x y m m' h =>
    have hm' := (hm.after (testIf_agrees shallow_lawful (shallow_agrees f)
      (hexprs condition List.mem_cons_self).straight) (balanced_testIf f condition) h).1
    refine (hstmts x ?_).execute hn hm' hf
    simp only [Node.statements]
    split <;> exact List.mem_cons_self
  | @elseBranch f condition x y m m' hy h =>
    have hm' := (hm.after (testIf_agrees shallow_lawful (shallow_agrees f)
      (hexprs condition List.mem_cons_self).straight) (balanced_testIf f condition) h).1
    refine (hstmts y ?_).execute hn hm' hf
    simp [Node.statements, hy]
  | whileCondition | passes => cases hn.straight

/-- A call starts an activation with fewer levels left. -/
theorem AtDepth.comes_of_invoke {f : Nat} {name : Label} {args : List Value}
    (hm : AtDepth limit base depth size m) (hargs : ∀ v ∈ args, v.isScalar)
    (hf : reserve depth size < f) (h : (Task.invoke f name args).Comes m t' m') :
    t'.Ready limit size m' := by
  cases h with
  | @call f name args m m' id r start hcallee hlen hstart =>
    have hcall : (Node.call name []).isStraight := rfl
    obtain ⟨hm', hr, -⟩ := hm.after (shallow_lawful.callee hcall)
      (inherited_balanced.callee name) hcallee
    cases hr with
    | some hr =>
      have hr : r.Shallow depth size := hr.2
      obtain ⟨depth', rfl⟩ := Nat.exists_eq_succ_of_ne_zero (Nat.ne_zero_of_lt hr.deepest_lt)
      have hdeep := hr.deepest_lt
      have hsize := hr.size_le
      have hcalls := hm'.calls_le
      have hopened : (r.name :: m'.calls).length + depth' ≤ limit := by
        simp only [List.length_cons]
        omega
      refine .opened hopened (fun s hs => Node.shallow_of_mem hr.straight (by omega) hsize hs) hargs
        hstart ?_
      rw [reserve, Nat.succ_mul, ← reserve] at hf
      omega

theorem AtDepth.comes_of_fillFrom {f : Nat} {name : Label} {address index : Nat} {count : Int}
    {elements : List Node} (hm : AtDepth limit base depth size m) (haddress : base ≤ address)
    (hroom : (shallow base depth size).simulation.room m.heap address address count)
    (hcount : (index + elements.length : Int) ≤ count) (helements : ∀ e ∈ elements, e.isStraight)
    (hf : sizeOf elements + reserve depth size < f)
    (h : (Task.fillFrom f name address index elements).Comes m t' m') :
    t'.Ready limit size m' := by
  cases h with
  | @element f name address index e rest m =>
    refine .evaluate hm (helements e List.mem_cons_self) ?_
    simp at hf
    omega
  | @laterElements f name address index e rest m m' h =>
    simp only [List.length_cons] at hcount
    obtain ⟨hm', -, hg⟩ := hm.after (storeElement_agrees shallow_lawful (shallow_agrees f)
        ⟨rfl, haddress⟩ hroom (by omega) (helements e List.mem_cons_self))
      (balanced_bind ((inherited_balanced.runs f).evaluate e) fun _ =>
        inherited_balanced.changeHeap _) h
    refine .fillFrom hm' haddress ((shallow base depth size).simulation.room_later hg hroom)
      (by omega)
      (fun c hc => helements c (List.mem_cons_of_mem _ hc)) ?_
    simp at hf
    omega

theorem calls_of_recordCall {r : Routine} {args : List Value}
    (h : (recordCall r args).on m = (.ok (), m')) : m'.calls = m.calls := by
  have hcalls := (keepsCalls_recordCall r args m).2
  rwa [h] at hcalls

/-- What has enough fuel hands enough of it on. -/
theorem Task.Ready.comes (ht : t.Ready limit size m) (h : t.Comes m t' m') :
    t'.Ready limit size m' := by
  cases ht with
  | evaluate hm hn hf => exact hm.comes_of_evaluate hn hf h
  | execute hm hn hf => exact hm.comes_of_execute hn hf h
  | executeAll hm hbody hf =>
    cases h with
    | @statement f before n after m m' h =>
      have hm' := (hm.after (Agrees.forEach before fun s hs => Agrees.bind
          ((shallow_agrees f).execute (hbody s (List.mem_append_left _ hs))) fun _ _ _ _ _ =>
            Agrees.pure fun _ _ => trivial)
        (inherited_balanced.forEach (fun s => balanced_bind
          ((inherited_balanced.runs f).execute s) fun _ => inherited_balanced.pure _) before) h).1
      have hmem : n ∈ before ++ n :: after := List.mem_append_right _ List.mem_cons_self
      have := List.sizeOf_lt_of_mem hmem
      exact .execute hm' (hbody n hmem) (by omega)
  | fillFrom hm haddress hroom hcount helements hf =>
    exact hm.comes_of_fillFrom haddress hroom hcount helements hf h
  | invoke hm hargs hf => exact hm.comes_of_invoke hargs hf h
  | opened hcalls hbody hargs hstart hf =>
    cases h with
    | enter h =>
      refine .executeAll ⟨shallow_start hargs hstart, ?_⟩ hbody hf
      rw [← calls_of_recordCall h] at hcalls
      exact hcalls

theorem Task.Ready.visits (ht : t.Ready limit size m) (h : t.Visits m t' m') :
    t'.Ready limit size m' := by
  suffices hall : ∀ p, Relation.ReflTransGen
      (fun s s' : Task × Machine => Comes s.1 s.2 s'.1 s'.2) (t, m) p →
        p.1.Ready limit size p.2 from
    hall _ h
  intro p hp
  induction hp with
  | refl => exact ht
  | tail _ hcomes ih => exact ih.comes hcomes

/-- With enough fuel a task ends. -/
theorem Task.Ready.not_starves (ht : t.Ready limit size m) : ¬ t.Starves m := by
  intro h
  obtain ⟨t', m', hvisits, hfuel⟩ := exists_visits_of_starves h
  have := (ht.visits hvisits).fuel_pos
  omega

end Ready

/-! ## Programs -/

/-- A program starts with all of its levels left. -/
theorem ready_startRun {body : List Node} (hbody : Node.allStraight body) (level : Int) {fuel : Nat}
    (hfuel : sizeOf body + reserve (Node.deepest body) (sizeOf body) < fuel) :
    (Task.executeAll fuel body).Ready (Node.deepest body) (sizeOf body)
      (startRun.on { level }).2 := by
  obtain ⟨traced, tracing, runs, hstart⟩ := exists_on_startRun { level }
  rw [hstart]
  have hholds : (shallow 0 (Node.deepest body) (sizeOf body)).Holds
      { ({ level } : Machine) with traced, tracing, runs } :=
    ⟨⟨Nat.le_refl _, fun _ hx => by simp at hx⟩,
      Scope.related_builtins fun _ => ⟨rfl, trivial⟩⟩
  exact .executeAll ⟨hholds, by simp⟩
    (fun n hn => Node.shallow_of_mem hbody (Nat.le_refl _) (Nat.le_refl _) hn) hfuel

/-- A program without loops that hands only calculated values to calls ends on a fresh machine, and
never has more calls open than declarations of routines are nested in it. -/
theorem runProgram_terminates {body : List Node} (hbody : (Node.program body).isStraight)
    (level : Int) :
    ∃ enough, ∀ fuel ≥ enough,
      ((runProgram fuel (.program body)).on { level }).1 ≠ .error .outOfFuel ∧
      ∀ t m, (Task.executeAll fuel body).Visits (startRun.on { level }).2 t m →
        m.calls.length ≤ (Node.program body).nesting := by
  refine ⟨sizeOf body + reserve (Node.deepest body) (sizeOf body) + 1, fun fuel hfuel => ?_⟩
  have hready := ready_startRun hbody level (Nat.lt_of_succ_le hfuel)
  refine ⟨fun hstop => hready.not_starves ?_, fun t m hvisits => (hready.visits hvisits).calls_le⟩
  rw [on_runProgram fuel rfl] at hstop
  exact hstop

/-- A routine that declares another one and calls it. -/
def nestedRoutines : List Node :=
  [.routineDecl .function "f" [.str "x"]
      [.routineDecl .function "g" [.str "y"] [.returnStmt (.ident "y")],
        .returnStmt (.call "g" [.binary .additive "+" (.ident "x") (.ident "x")])],
    .exprStmt (.call "f" [.literal "\"a\"" "str"])]

theorem runProgram_terminates_nestedRoutines :
    (Node.program nestedRoutines).isStraight ∧
      ∃ enough, ∀ fuel ≥ enough,
        ((runProgram fuel (.program nestedRoutines)).on { level := 1 }).1 ≠ .error .outOfFuel ∧
        ∀ t m, (Task.executeAll fuel nestedRoutines).Visits (startRun.on { level := 1 }).2 t m →
          m.calls.length ≤ 2 := by
  have hstraight : (Node.program nestedRoutines).isStraight := by decide
  have hnesting : (Node.program nestedRoutines).nesting = 2 := by decide
  refine ⟨hstraight, ?_⟩
  obtain ⟨enough, hends⟩ := runProgram_terminates hstraight 1
  rw [hnesting] at hends
  exact ⟨enough, hends⟩

end MiniAlgol
