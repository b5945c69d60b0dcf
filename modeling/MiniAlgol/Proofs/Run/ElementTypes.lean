import MiniAlgol.Proofs.Run.Faults
import MiniAlgol.Proofs.Run.Reached
import MiniAlgol.Proofs.Run.Sessions

/-!
# Element types

The type of the elements is checked where an initializer stores one, and nowhere else: an assignment
to an element stores any value. In a session without such assignments every element is undefined or
of the type that its array was declared with (`Session.elements_have_type`), also while an
initializer calls routines that see the array half filled, and after it has failed. No array is held
in another one then.

The invariant speaks of all arrays of the heap, so it does not matter under which names an array is
known or who holds it.
-/

namespace MiniAlgol

open MiniAlgol.Action Invariant Simulation

/-! ## Values of a type -/

namespace Value

variable {v : Value} {h : Heap} {tag : Tag}

theorem check_name (h : Heap) (v : Value) (tag : Tag) :
    v.check h tag.name = .ok () ↔ v.hasTag tag := by
  rw [check, Tag.ofName?_name]
  by_cases hv : v.hasTag tag
  · simp [hv]
  · -- what is not of the type is refused, whether or not its own type has a name
    simp only [hv, Bool.false_eq_true, if_false, iff_false]
    cases v.typeName h <;> simp

theorem isScalar_of_hasTag (hv : v.hasTag tag) : v.isScalar := by
  cases v with
  | array | routine | builtin => cases hv
  | _ => rfl

end Value

/-! ## What is stored -/

/-- No assignment to an element is within the node. -/
def Node.StoresNothing (n : Node) : Prop :=
  ∀ name indices value, ¬ n.Contains (.indexAssign name indices value)

theorem Node.StoresNothing.part {n s : Node} (hn : n.StoresNothing) (hs : s ∈ n.parts) :
    s.StoresNothing :=
  fun name indices value hcontains =>
    hn name indices value (Relation.ReflTransGen.head hs hcontains)

theorem Node.StoresNothing.of_parts {n : Node}
    (hself : ∀ name indices value, n ≠ .indexAssign name indices value)
    (hparts : ∀ s ∈ n.parts, s.StoresNothing) : n.StoresNothing := by
  intro name indices value hcontains
  rcases Relation.ReflTransGen.cases_head hcontains with hn | ⟨s, hs, hcontains⟩
  · exact hself name indices value hn
  · exact hparts s hs name indices value hcontains

theorem Node.StoresNothing.body {program : Node} {body : List Node}
    (hprogram : program.StoresNothing) (hbody : programBody program = .ok body) :
    ∀ s ∈ body, s.StoresNothing :=
  fun _ hs => hprogram.part (Node.mem_parts_of_programBody hbody hs)

/-! ## The invariant -/

/-- Every element is undefined or of the type that its array was declared with. -/
structure Heap.Typed (h : Heap) : Prop where
  element : ∀ {a : Nat} {x v}, h[a]? = some x → v ∈ x.elements → v = .undefined ∨ v.hasTag x.elem

theorem Heap.Typed.isScalar {h : Heap} (hh : h.Typed) {a : Nat} {x : ArrayObject} {v : Value}
    (hx : h[a]? = some x) (hv : v ∈ x.elements) : v.isScalar := by
  rcases hh.element hx hv with rfl | htag
  · rfl
  · exact Value.isScalar_of_hasTag htag

/-- No path in the heap has an edge. -/
theorem Heap.Typed.not_reaches {h : Heap} (hh : h.Typed) (a b : Nat) :
    ¬ Relation.TransGen h.Holds a b := by
  intro hpath
  obtain ⟨c, ⟨x, hx, hc⟩, -⟩ := Relation.TransGen.head'_iff.1 hpath
  have hscalar := hh.isScalar hx hc
  cases hscalar

/-- The invariant of the runs of trees that store nothing. -/
def typing : Invariant where
  expression _ := True
  statement := Node.StoresNothing
  routine r := ∀ s ∈ r.body, s.StoresNothing
  address _ _ := True
  heap := Heap.Typed
  fault _ _ := True
  address_grows _ _ := trivial

theorem typing_value_grows {h h' : Heap} {v : Value} (hv : typing.value h v) :
    typing.value h' v := by
  cases v with
  | array => trivial
  | _ => exact hv

theorem typing_kept : typing.Kept where
  expression_parts _ _ _ := trivial
  statement_expressions _ _ _ := trivial
  statement_parts hn _ hs := hn.part (Node.mem_parts_of_mem_statements hs)
  routine_body hr := hr
  declared hn _ hs := hn.part hs
  element hh _ hx hv := value_of_isScalar (Heap.Typed.isScalar hh hx hv)
  push := by
    intro h name elem extents init x hh _ hx
    refine ⟨⟨fun hy hv => ?_⟩, trivial⟩
    exact Heap.elements_push (P := fun _ tag v => v = .undefined ∨ v.hasTag tag) hh.element hx
      (fun _ _ => .inl rfl) hy hv
  put := by
    intro h a x x' i j v hh _ hx _ hfits hput
    refine ⟨fun hy hu => ?_⟩
    rcases hfits with htag | ⟨name, indices, value, hn⟩
    · exact Heap.elements_put (P := fun _ tag v => v = .undefined ∨ v.hasTag tag) hh.element hx
        (.inr htag) hput hy hu
    · -- only an assignment to an element stores what was not checked
      exact absurd Relation.ReflTransGen.refl (hn name indices value)

theorem typing_allows : typing.Allows :=
  allows_of_fault trivial

/-! ## Sessions -/

namespace Session

variable {s : Session}

/-- What a session can come to by running programs that store nothing, in scopes and at levels of
the trace as they may be. -/
inductive StoresNothing : Session → Prop where
  | new (level : Int) : StoresNothing (atLevel level)
  | run {s : Session} (hs : StoresNothing s) (scope : String) (fuel : Nat) {program : Node}
      (hprogram : program.StoresNothing) :
      StoresNothing ((s.withScope scope).within scope (runProgram fuel program)).2
  | level {s : Session} (hs : StoresNothing s) (level : Int) :
      StoresNothing { s with machine := { s.machine with level } }

theorem StoresNothing.everywhere (hs : s.StoresNothing) : typing.Everywhere s := by
  induction hs with
  | new level => exact everywhere_atLevel (I := typing) ⟨nofun⟩ level
  | run _ scope fuel hprogram ih =>
    refine ih.within scope ?_ typing_value_grows
    exact typing_kept.runProgram typing_allows fuel (fun _ hbody => hprogram.body hbody) (ih scope)
  | level _ _ ih => exact fun name => ⟨(ih name).heap, (ih name).scope⟩

/-- The heaps that there are while a program runs in a scope of the session. The heap changes when
an array is made and when an element is stored, and then a task is started or the task is at its
end. -/
inductive Passes (s : Session) (scope : String) (fuel : Nat) (program : Node) : Heap → Prop where
  | before : Passes s scope fuel program s.machine.heap
  | started {body t m} (hbody : programBody program = .ok body)
      (hvisits : (Task.executeAll fuel body).Visits
        (startRun.on { s.machine with scope := s.scope scope }).2 t m) :
      Passes s scope fuel program m.heap
  | left {body t m} (hbody : programBody program = .ok body)
      (hvisits : (Task.executeAll fuel body).Visits
        (startRun.on { s.machine with scope := s.scope scope }).2 t m) :
      Passes s scope fuel program (t.leaves m).heap

theorem Passes.typed {scope : String} {fuel : Nat} {program : Node} {h : Heap}
    (hs : s.StoresNothing) (hprogram : program.StoresNothing)
    (hh : s.Passes scope fuel program h) : h.Typed := by
  have hstart := hs.everywhere scope
  have Q := typing_kept.primitive typing_allows
  have hfits : ∀ {body t m}, programBody program = .ok body →
      (Task.executeAll fuel body).Visits
        (startRun.on { s.machine with scope := s.scope scope }).2 t m → t.Fits typing m :=
    fun hbody => Task.Fits.visits Q.lawful (.executeAll hstart.startRun (hprogram.body hbody))
  cases hh with
  | before => exact hstart.heap
  | started hbody hvisits => exact (hfits hbody hvisits).holds.heap
  | left hbody hvisits => exact ((hfits hbody hvisits).leaves Q).heap

/-- Whatever programs without assignments to elements do in a session, at any time during a run and
however the runs end, every element of every array is undefined or a value that the check of the
element type accepts. So no array of integers has a truth value in it, and no array has an array or
something to call in it; hence none is reached from itself. -/
theorem elements_have_type (hs : s.StoresNothing) {scope : String} {fuel : Nat} {program : Node}
    (hprogram : program.StoresNothing) {h : Heap} (hh : s.Passes scope fuel program h) :
    (∀ (a : Nat) (x : ArrayObject), h[a]? = some x → ∀ v ∈ x.elements,
      (v = .undefined ∨ v.check h x.elem.name = .ok ()) ∧
      (x.elem = .int → ∀ b, v ≠ .bool b) ∧ (∀ b, v ≠ .array b) ∧ v.isCallable = false) ∧
    ∀ a, ¬ Relation.TransGen h.Holds a a := by
  have htyped := Passes.typed hs hprogram hh
  refine ⟨fun a x hx v hv => ⟨?_, ?_, ?_, ?_⟩, fun a => htyped.not_reaches a a⟩
  · exact (htyped.element hx hv).imp_right (Value.check_name h v x.elem).2
  · rintro hint b rfl
    rcases htyped.element hx hv with hundefined | htag
    · cases hundefined
    · rw [hint] at htag
      cases htag
  · rintro b rfl
    have hscalar := htyped.isScalar hx hv
    cases hscalar
  · have hscalar := htyped.isScalar hx hv
    cases v with
    | routine | builtin => cases hscalar
    | _ => rfl

/-- Fills an array with the result of a call, and then with a value that does not fit. -/
def callingInitializer : List Node :=
  [.routineDecl .function "f" [] [.returnStmt (.literal (.int 2) "int")],
    .arrayDecl "a" .int [3] (some [.literal (.int 1) "int", .call "f" [],
      .literal (.bool true) "bool"])]

/-- The heap while its array has this second element. -/
def callingHeap (second : Value) : Heap :=
  #[.line .int #[.int 1, second, .undefined]]

/-- The array has one element when the initializer calls, and two when it has failed. -/
theorem elements_have_type_halfFilled :
    (atLevel 0).Passes programName 9 (.program callingInitializer) (callingHeap .undefined) ∧
      (atLevel 0).Passes programName 9 (.program callingInitializer) (callingHeap (.int 2)) ∧
      ∀ second ∈ [Value.undefined, .int 2], ∀ v ∈ [.int 1, second, .undefined],
        v = .undefined ∨ v.check (callingHeap second) "int" = .ok () := by
  have hdeclare : (Node.routineDecl .function "f" []
      [.returnStmt (.literal (.int 2) "int")]).StoresNothing :=
    .of_parts nofun (List.forall_mem_singleton.2 (.of_parts nofun nofun))
  have hprogram : (Node.program callingInitializer).StoresNothing :=
    .of_parts nofun (List.forall_mem_cons.2 ⟨hdeclare,
      List.forall_mem_singleton.2 (.of_parts nofun nofun)⟩)
  have htyped : ∀ second,
      (atLevel 0).Passes programName 9 (.program callingInitializer) (callingHeap second) →
      ∀ v ∈ [.int 1, second, .undefined],
        v = .undefined ∨ v.check (callingHeap second) "int" = .ok () := fun second hpasses v hv =>
    ((elements_have_type (.new 0) hprogram hpasses).1 0 _ rfl v hv).1
  let m := (startRun.on { (atLevel 0).machine with scope := (atLevel 0).scope programName }).2
  have hcalls : ∃ m', (Task.executeAll 9 callingInitializer).Visits m (.invoke 4 "f" []) m' ∧
      m'.heap = callingHeap .undefined :=
    ⟨_, .head (@Task.Comes.statement 8 [_] _ [] _ _ (on_eq_of_ok (by cbv)))
      (.head (@Task.Comes.elements _ _ _ _ _ _ _ 0 (on_eq_of_ok (by cbv)))
      (.head (.laterElements (on_eq_of_ok (by cbv)))
      (.head .element
      (.head (@Task.Comes.invocation 4 "f" [] _ _ [] (on_eq_of_ok (by cbv))) .refl)))), by cbv⟩
  have hduring : (atLevel 0).Passes programName 9 (.program callingInitializer)
      (callingHeap .undefined) := by
    obtain ⟨m', hvisits, hheap⟩ := hcalls
    rw [← hheap]
    exact .started rfl hvisits
  have hfails : ((Task.executeAll 9 callingInitializer).leaves m).heap
      = callingHeap (.int 2) := by cbv
  have hafter : (atLevel 0).Passes programName 9 (.program callingInitializer)
      (callingHeap (.int 2)) := by
    rw [← hfails]
    exact .left rfl .refl
  exact ⟨hduring, hafter, List.forall_mem_cons.2 ⟨htyped _ hduring,
    List.forall_mem_singleton.2 (htyped _ hafter)⟩⟩

end Session

end MiniAlgol
