import MiniAlgol.Proofs.Heap.Shape
import MiniAlgol.Proofs.Run.Faults
import MiniAlgol.Proofs.Run.Sessions

/-!
# Arrays keep their shapes

However a session goes on, every array has the shape that it was declared with
(`arrays_keep_shape`), also when extents are negative, when an initializer fails on its way, and
when the array is shared under other names or held in other arrays. So indices that pass the check
of the extents always come to an element.

Which shapes there are depends on the trees that are run: all arrays that are declared within them
have an element type and extents as `D` allows. The invariant of a run is that arrays from before
keep what shape they had, and that the new ones have a shape from `D` (`Heap.Evolved`).
-/

namespace MiniAlgol

open MiniAlgol.Action Invariant Simulation

variable {D : Tag → List Int → Prop} {before h h' h'' : Heap} {a : Nat} {x : ArrayObject}
  {v : Value}

/-! ## What trees declare -/

/-- The arrays that are declared within the node have element types and extents as allowed. -/
def Node.DeclaresOnly (D : Tag → List Int → Prop) (n : Node) : Prop :=
  ∀ name elem extents init, n.Contains (.arrayDecl name elem extents init) → D elem extents

/-- So have those that are declared within the routine. -/
def Routine.DeclaresOnly (D : Tag → List Int → Prop) (r : Routine) : Prop :=
  ∀ s ∈ r.body, s.DeclaresOnly D

def Value.DeclaresOnly (D : Tag → List Int → Prop) : Value → Prop
  | .routine _ r => r.DeclaresOnly D
  | _ => True

def Scope.DeclaresOnly (D : Tag → List Int → Prop) (scope : Scope) : Prop :=
  ∀ key v, scope.get? key = some v → v.DeclaresOnly D

theorem Node.DeclaresOnly.part {n s : Node} (hn : n.DeclaresOnly D) (hs : s ∈ n.parts) :
    s.DeclaresOnly D :=
  fun name elem extents init hcontains =>
    hn name elem extents init (Relation.ReflTransGen.head hs hcontains)

theorem Node.DeclaresOnly.of_parts {n : Node}
    (hself : ∀ name elem extents init, n = .arrayDecl name elem extents init → D elem extents)
    (hparts : ∀ s ∈ n.parts, s.DeclaresOnly D) : n.DeclaresOnly D := by
  intro name elem extents init hcontains
  rcases Relation.ReflTransGen.cases_head hcontains with hn | ⟨s, hs, hcontains⟩
  · exact hself name elem extents init hn
  · exact hparts s hs name elem extents init hcontains

theorem Node.DeclaresOnly.body {program : Node} {body : List Node}
    (hprogram : program.DeclaresOnly D) (hbody : programBody program = .ok body) :
    ∀ s ∈ body, s.DeclaresOnly D :=
  fun _ hs => hprogram.part (Node.mem_parts_of_programBody hbody hs)

/-! ## The invariant of a run -/

/-- Arrays from before have kept their shapes, new ones have shapes from `D`, and the routines that
arrays hold declare such arrays only. -/
structure Heap.Evolved (D : Tag → List Int → Prop) (before h : Heap) : Prop where
  kept : ∀ {a : Nat} {x elem extents}, before[a]? = some x → x.HasShape elem extents →
    ∃ x', h[a]? = some x' ∧ x'.HasShape elem extents
  made : ∀ {a : Nat} {x}, h[a]? = some x →
    a < before.size ∨ ∃ elem extents, D elem extents ∧ x.HasShape elem extents
  values : ∀ {a : Nat} {x v}, h[a]? = some x → v ∈ x.elements → v.DeclaresOnly D

theorem Heap.Evolved.refl
    (hvalues : ∀ {a : Nat} {x v}, h[a]? = some x → v ∈ x.elements → v.DeclaresOnly D) :
    Heap.Evolved D h h where
  kept hx hshape := ⟨_, hx, hshape⟩
  made hx := .inl (Array.getElem?_eq_some_iff.1 hx).1
  values := hvalues

theorem Heap.Evolved.trans (hbefore : Heap.Evolved D before h) (hafter : Heap.Evolved D h h') :
    Heap.Evolved D before h' where
  kept hx hshape := by
    obtain ⟨y, hy, hshape⟩ := hbefore.kept hx hshape
    exact hafter.kept hy hshape
  made := by
    intro a x hx
    rcases hafter.made hx with ha | hmade
    · -- the array was there in between, with the shape that it has now
      have hy : h[a]? = some h[a] := Array.getElem?_eq_getElem ha
      refine (hbefore.made hy).imp_right ?_
      rintro ⟨elem, extents, hD, hshape⟩
      obtain ⟨x', hx', hshape⟩ := hafter.kept hy hshape
      rw [hx] at hx'
      cases hx'
      exact ⟨elem, extents, hD, hshape⟩
    · exact .inr hmade
  values := hafter.values

theorem Heap.Evolved.push {elem : Tag} {extents : List Int} (hh : Heap.Evolved D before h)
    (hD : D elem extents) (hx : ArrayObject.allocate elem extents = .ok x) :
    Heap.Evolved D before (h.push x) where
  kept hy hshape := by
    obtain ⟨y', hy', hshape⟩ := hh.kept hy hshape
    have hlt := (Array.getElem?_eq_some_iff.1 hy').1
    refine ⟨y', ?_, hshape⟩
    rw [Array.getElem?_push, if_neg (by omega), hy']
  made := by
    intro a y hy
    rw [Array.getElem?_push] at hy
    split at hy
    · cases hy
      exact .inr ⟨elem, extents, hD, ArrayObject.hasShape_allocate hx⟩
    · exact hh.made hy
  values := by
    intro a y v hy hv
    exact Heap.elements_push (P := fun _ _ v => v.DeclaresOnly D) hh.values hx
      (fun _ _ => trivial) hy hv

theorem Heap.Evolved.put {x' : ArrayObject} {i j : Int} (hh : Heap.Evolved D before h)
    (hx : h[a]? = some x) (hv : v.DeclaresOnly D) (hput : x.put i j v = .ok x') :
    Heap.Evolved D before (h.setIfInBounds a x') where
  kept := by
    intro b y elem extents hy hshape
    obtain ⟨y', hy', hshape⟩ := hh.kept hy hshape
    rw [Heap.getElem?_set hx]
    split
    · rename_i hba
      rw [hba, hx] at hy'
      cases hy'
      exact ⟨x', rfl, hshape.put hput⟩
    · exact ⟨y', hy', hshape⟩
  made := by
    intro b y hy
    rw [Heap.getElem?_set hx] at hy
    split at hy
    · rename_i hba
      cases hy
      refine (hh.made (hba ▸ hx)).imp_right ?_
      rintro ⟨elem, extents, hD, hshape⟩
      exact ⟨elem, extents, hD, hshape.put hput⟩
    · exact hh.made hy
  values := by
    intro b y u hy hu
    exact Heap.elements_put (P := fun _ _ v => v.DeclaresOnly D) hh.values hx hv hput hy hu

/-- The invariant of the runs from a heap of trees that declare arrays as `D` allows. -/
def shaping (D : Tag → List Int → Prop) (before : Heap) : Invariant where
  expression _ := True
  statement := Node.DeclaresOnly D
  routine := Routine.DeclaresOnly D
  address _ _ := True
  heap := Heap.Evolved D before
  fault _ _ := True
  address_grows _ _ := trivial

theorem shaping_value : (shaping D before).value h v ↔ v.DeclaresOnly D := by
  cases v <;> simp [Invariant.value, Value.DeclaresOnly, shaping]

theorem shaping_kept (D : Tag → List Int → Prop) (before : Heap) : (shaping D before).Kept where
  expression_parts _ _ _ := trivial
  statement_expressions _ _ _ := trivial
  statement_parts hn _ hs := hn.part (Node.mem_parts_of_mem_statements hs)
  routine_body hr := hr
  declared hn _ hs := hn.part hs
  element hh _ hx hv := shaping_value.2 (hh.values hx hv)
  push := by
    intro h name elem extents init x hh hs hx
    have hD : D elem extents := hs name elem extents init Relation.ReflTransGen.refl
    exact ⟨hh.push hD hx, trivial⟩
  put hh _ hx hv _ hput := hh.put hx (shaping_value.1 hv) hput

/-- Shapes forbid no fault. -/
theorem shaping_allows (D : Tag → List Int → Prop) (before : Heap) :
    (shaping D before).Allows :=
  allows_of_fault trivial

theorem shaping_holds {m : Machine} :
    (shaping D before).Holds m ↔ Heap.Evolved D before m.heap ∧ m.scope.DeclaresOnly D := by
  simp only [holds_iff, shaping_value]
  exact Iff.rfl

/-! ## Runs -/

section Runs

variable {α : Type} {m : Machine} (fuel : Nat)

/-- The action keeps arrays in shape, whatever they were before it. -/
def Shaping (D : Tag → List Int → Prop) (x : Action α) : Prop :=
  ∀ before m, (shaping D before).Holds m → (shaping D before).Holds (x.on m).2

theorem shaping_lawful (D : Tag → List Int → Prop) (before : Heap) :
    (shaping D before).simulation.Lawful :=
  ((shaping_kept D before).primitive (shaping_allows D before)).lawful

theorem shaping_execute {n : Node} (hn : n.DeclaresOnly D) : Shaping D (execute fuel n) := by
  intro before m hm
  exact holds_of_agrees (((shaping_lawful D before).agrees (.inl rfl)).execute hn) hm

theorem shaping_evaluate (n : Node) : Shaping D (evaluate fuel n) := by
  intro before m hm
  exact holds_of_agrees (((shaping_lawful D before).agrees (.inl rfl)).evaluate trivial) hm

theorem shaping_invoke (name : Label) {args : List Value} (hargs : ∀ v ∈ args, v.DeclaresOnly D) :
    Shaping D (invoke fuel name args) := by
  intro before m hm
  have hruns : (shaping D before).simulation.AgreesAt fuel fuel :=
    (shaping_lawful D before).agrees (.inl rfl)
  have hvalues : (shaping D before).simulation.values m.heap args args :=
    values_iff.2 ⟨rfl, fun v hv => shaping_value.2 (hargs v hv)⟩
  exact holds_of_agrees (@hruns.invoke m.heap name [] args args trivial hvalues) hm

theorem shaping_runProgram {program : Node} (hprogram : program.DeclaresOnly D) :
    Shaping D (runProgram fuel program) := by
  intro before m hm
  exact (shaping_kept D before).runProgram (shaping_allows D before) fuel
    (fun _ hbody => hprogram.body hbody) hm

/-- A declaration leaves an array of its shape at the next address, however it ends. -/
theorem hasShape_arrayDecl (name : Label) {elem : Tag} {extents : List Int}
    (init : Option (List Node)) (hx : ArrayObject.allocate elem extents = .ok x) (m : Machine) :
    ∃ x', ((execute (fuel + 1) (.arrayDecl name elem extents init)).on m).2.heap[m.heap.size]?
      = some x' ∧ x'.HasShape elem extents := by
  let D : Tag → List Int → Prop := fun _ _ => True
  have hdeclares : ∀ v : Value, v.DeclaresOnly D := by
    intro v
    cases v with
    | routine id r => exact fun s _ _ _ _ _ _ => trivial
    | _ => trivial
  have hn : (Node.arrayDecl name elem extents init).DeclaresOnly D := fun _ _ _ _ _ => trivial
  have L := shaping_lawful D (m.heap.push x)
  have hallocate : (allocateArray elem extents).on m
      = (.ok m.heap.size, { m with heap := m.heap.push x }) := by
    rw [allocateArray, on_bind, hx]
    rfl
  have hstart : (shaping D (m.heap.push x)).Holds { m with heap := m.heap.push x } :=
    shaping_holds.2 ⟨.refl fun _ _ => hdeclares _, fun _ _ _ => hdeclares _⟩
  have haddress : ∀ h, (shaping D (m.heap.push x)).both h (.array m.heap.size)
      (.array m.heap.size) := fun _ => ⟨rfl, trivial⟩
  have hlast : (m.heap.push x)[m.heap.size]? = some x := by
    rw [Array.getElem?_push, if_pos rfl]
  -- the rest of the declaration keeps the shape of the array that is there now
  rw [execute_arrayDecl, on_bind, hallocate]
  refine (holds_of_agrees (Q := fun _ _ _ => True) ?_ hstart).heap.kept hlast
    (ArrayObject.hasShape_allocate hx)
  apply Agrees.bind (L.bind hn rfl (haddress _))
  intro h _ _ _ _
  apply Agrees.bind (initialElements_agrees L (L.agrees (.inl rfl)) (haddress h) fun _ _ => trivial)
  intro _ _ _ _ _
  exact Agrees.bind (L.record .declareArray) fun _ _ _ _ _ => Agrees.pure fun _ _ => trivial

end Runs

/-! ## Sessions -/

namespace Session

variable {α : Type} {s s' : Session}

/-- A step of a session in the scope with some name. The trees that it runs, and the routines that
it is given, declare arrays as `D` allows. -/
inductive Step (D : Tag → List Int → Prop) (s : Session) : Session → Prop where
  | run (scope : String) (fuel : Nat) {program : Node} (hprogram : program.DeclaresOnly D) :
    Step D s ((s.withScope scope).within scope (runProgram fuel program)).2
  | execute (scope : String) (fuel : Nat) {n : Node} (hn : n.DeclaresOnly D) :
    Step D s ((s.withScope scope).within scope (execute fuel n)).2
  | evaluate (scope : String) (fuel : Nat) (n : Node) :
    Step D s ((s.withScope scope).within scope (evaluate fuel n)).2
  | call (scope : String) (fuel : Nat) (name : Label) {args : List Value}
      (hargs : ∀ v ∈ args, v.DeclaresOnly D) :
    Step D s ((s.withScope scope).within scope (invoke fuel name args)).2
  | level (level : Int) : Step D s { s with machine := { s.machine with level } }

/-- The second session comes about from the first one. -/
abbrev Leads (D : Tag → List Int → Prop) : Session → Session → Prop :=
  Relation.ReflTransGen (Step D)

/-- Arrays have shapes from `D`, and all scopes hold routines that declare such arrays only. -/
structure InShape (D : Tag → List Int → Prop) (s : Session) : Prop where
  heap : Heap.Evolved D #[] s.machine.heap
  scope : ∀ name, (s.scope name).DeclaresOnly D

theorem inShape_atLevel (D : Tag → List Int → Prop) (level : Int) : InShape D (atLevel level) := by
  have hempty : Heap.Evolved D #[] #[] := .refl nofun
  exact ⟨hempty, fun name => (shaping_holds.1 (everywhere_atLevel hempty level name)).2⟩

/-- An action that keeps arrays in shape, done in some scope of a session. -/
theorem InShape.within (hs : s.InShape D) (scope : String) {x : Action α} (hx : Shaping D x) :
    InShape D ((s.withScope scope).within scope x).2 ∧
      Heap.Evolved D s.machine.heap ((s.withScope scope).within scope x).2.machine.heap := by
  have hbefore : (shaping D s.machine.heap).Everywhere s := fun name =>
    shaping_holds.2 ⟨.refl hs.heap.values, hs.scope name⟩
  have hafter := hbefore.within scope (hx _ _ (hbefore scope)) fun hv =>
    shaping_value.2 (shaping_value.1 hv)
  have hevolved := (shaping_holds.1 (hafter scope)).1
  exact ⟨⟨hs.heap.trans hevolved, fun name => (shaping_holds.1 (hafter name)).2⟩, hevolved⟩

/-- What one step keeps. -/
theorem InShape.step (hs : s.InShape D) (hstep : Step D s s') :
    s'.InShape D ∧ Heap.Evolved D s.machine.heap s'.machine.heap := by
  cases hstep with
  | run scope fuel hprogram => exact hs.within scope (shaping_runProgram fuel hprogram)
  | execute scope fuel hn => exact hs.within scope (shaping_execute fuel hn)
  | evaluate scope fuel n => exact hs.within scope (shaping_evaluate fuel n)
  | call scope fuel name hargs => exact hs.within scope (shaping_invoke fuel name hargs)
  | level level => exact ⟨⟨hs.heap, hs.scope⟩, .refl hs.heap.values⟩

/-- What any number of steps keeps. -/
theorem InShape.leads (hs : s.InShape D) (hleads : Leads D s s') :
    s'.InShape D ∧ Heap.Evolved D s.machine.heap s'.machine.heap := by
  induction hleads with
  | refl => exact ⟨hs, .refl hs.heap.values⟩
  | tail _ hstep ih =>
    obtain ⟨hbetween, hevolved⟩ := ih
    obtain ⟨hafter, hlast⟩ := hbetween.step hstep
    exact ⟨hafter, hevolved.trans hlast⟩

theorem InShape.hasShape (hs : s.InShape D) (hx : s.machine.heap[a]? = some x) :
    ∃ elem extents, D elem extents ∧ x.HasShape elem extents := by
  rcases hs.heap.made hx with ha | hmade
  · cases ha
  · exact hmade

/-- Whatever a session does, every array has an element type and extents that some declaration of
its trees gave, with as many elements as they say, and keeps them from then on. Hence indices that
are not refused address an element: reading gives it, and storing replaces it and no other. And the
array of a declaration has the shape that is written there, however the declaration ends. -/
theorem arrays_keep_shape {level : Int} (hs : Leads D (atLevel level) s) (hs' : Leads D s s') :
    (∀ (a : Nat) (x : ArrayObject), s.machine.heap[a]? = some x →
      (∃ elem extents, D elem extents ∧ x.HasShape elem extents) ∧
      ∀ elem extents, x.HasShape elem extents →
        ∃ x', s'.machine.heap[a]? = some x' ∧ x'.HasShape elem extents) ∧
    (∀ name target indices a x i j,
      Heap.locate s.machine.heap name target indices = .ok (a, x, i, j) →
        (∃ v, Heap.read s.machine.heap name target indices = .ok v) ∧
        ∀ v, ∃ x', Heap.write s.machine.heap name target indices v
            = .ok (s.machine.heap.setIfInBounds a x') ∧
          ∀ k l, x.InRange k l → x'.get k l = if k = i ∧ l = j then .ok v else x.get k l) ∧
    ∀ (fuel : Nat) name elem extents init x (m : Machine),
      ArrayObject.allocate elem extents = .ok x →
      ∃ x', ((execute (fuel + 1) (.arrayDecl name elem extents init)).on m).2.heap[m.heap.size]?
        = some x' ∧ x'.HasShape elem extents := by
  obtain ⟨hshape, -⟩ := (inShape_atLevel D level).leads hs
  obtain ⟨-, hevolved⟩ := hshape.leads hs'
  refine ⟨fun a x hx => ⟨hshape.hasShape hx, fun elem extents hx' => hevolved.kept hx hx'⟩, ?_,
    fun fuel name elem extents init x m hx => hasShape_arrayDecl fuel name init hx m⟩
  intro name target indices a x i j hlocate
  obtain ⟨-, hx, -⟩ := Heap.locate_ok hlocate
  obtain ⟨elem, extents, -, hx⟩ := hshape.hasShape hx
  exact ⟨Heap.read_of_locate hx.shaped hlocate, Heap.write_of_locate hx.shaped hlocate⟩

/-- The arrays that `shapedProgram` declares. -/
def shapedDeclarations (elem : Tag) (extents : List Int) : Prop :=
  elem = .int ∧ extents = [2, 3] ∨ elem = .bool ∧ extents = [-4, 2]

/-- Declares an array that is filled in part, and one with a negative extent. -/
def shapedProgram : Node :=
  .program [.arrayDecl "a" .int [2, 3] (some [.literal (.int 5) "int"]),
    .arrayDecl "b" .bool [-4, 2] none]

/-- Stores the second array in an element of the first. -/
def shapedStore : Node :=
  .indexAssign "a" [.literal (.int 1) "int", .literal (.int 2) "int"] (.ident "b")

/-- A new session that ran the program. -/
def shapedSession : Session :=
  (((atLevel 0).withScope programName).within programName (runProgram 4 shapedProgram)).2

theorem arrays_keep_shape_negative :
    ∃ s', Leads shapedDeclarations (atLevel 0) shapedSession ∧
      Leads shapedDeclarations shapedSession s' ∧
      shapedSession.machine.heap[1]? = some (.grid .bool (-4) 2 #[]) ∧
      (∃ x', s'.machine.heap[1]? = some x' ∧ x'.HasShape .bool [-4, 2]) ∧
      ∃ v, Heap.read s'.machine.heap "a" (.array 0) [.int 1, .int 2] = .ok v := by
  have hprogram : shapedProgram.DeclaresOnly shapedDeclarations := by
    refine .of_parts (fun _ _ _ _ h => by cases h) ?_
    refine List.forall_mem_cons.2 ⟨?_, List.forall_mem_singleton.2 ?_⟩
    · refine .of_parts (fun _ _ _ _ h => ?_) nofun
      cases h
      exact .inl ⟨rfl, rfl⟩
    · refine .of_parts (fun _ _ _ _ h => ?_) nofun
      cases h
      exact .inr ⟨rfl, rfl⟩
  have hstore : shapedStore.DeclaresOnly shapedDeclarations :=
    .of_parts (fun _ _ _ _ h => by cases h) nofun
  have hs : Leads shapedDeclarations (atLevel 0) shapedSession :=
    .single (.run programName 4 hprogram)
  have hs' : Leads shapedDeclarations shapedSession _ :=
    .single (.execute programName 3 hstore)
  refine ⟨_, hs, hs', rfl, ?_, ?_⟩
  · exact ((arrays_keep_shape hs hs').1 1 _ rfl).2 .bool [-4, 2] (.grid rfl nofun)
  · exact ((arrays_keep_shape (hs.trans hs') .refl).2.1 _ _ _ _ _ _ _ rfl).1

end Session

end MiniAlgol
