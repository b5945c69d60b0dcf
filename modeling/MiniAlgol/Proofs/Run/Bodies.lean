import MiniAlgol.Proofs.Heap.Bodies
import MiniAlgol.Proofs.Run.Primitives

/-!
# Machines with other bodies

Nothing but a call looks into the body of a routine. So everything else that a run does, it does in
the same way on a machine that holds routines with other bodies: `Commutes` says that it makes no
difference whether the other bodies are put in before an action or after it.
-/

namespace MiniAlgol

open MiniAlgol.Action

variable (φ : List Node → List Node) {α β γ δ : Type}

/-! ## Other bodies in machines -/

/-- The scope with other bodies in the routines that its names stand for. -/
def Scope.mapBodies (s : Scope) : Scope :=
  ⟨s.bindings.map fun binding => (binding.1, binding.2.mapBodies φ)⟩

/-- The machine with other bodies in everything that it holds. The lines printed and traced and the
names of the open calls stay. -/
def Machine.mapBodies (m : Machine) : Machine :=
  { m with scope := m.scope.mapBodies φ, heap := m.heap.mapBodies φ }

def Stop.mapBodies : Stop → Stop
  | .fault f => .fault (f.mapBodies φ)
  | .outOfFuel => .outOfFuel

/-- The end of an action with other bodies; `τ` puts them into the result. -/
def endMapBodies (τ : α → β) (e : Except Stop α × Machine) : Except Stop β × Machine :=
  ((e.1.map τ).mapError (Stop.mapBodies φ), e.2.mapBodies φ)

variable {φ}

namespace Scope

variable {s : Scope}

/-- A name stands for the same value with another body. -/
@[simp] theorem get?_mapBodies (key : Key) :
    (s.mapBodies φ).get? key = (s.get? key).map (Value.mapBodies φ) := by
  obtain ⟨bindings⟩ := s
  simp only [mapBodies, get?]
  induction bindings with
  | nil => rfl
  | cons binding rest ih =>
    simp only [List.map_cons, find?, ih]
    split <;> rfl

theorem set_mapBodies (name : Name) (v : Value) :
    (s.set name v).mapBodies φ = (s.mapBodies φ).set name (v.mapBodies φ) := by
  obtain ⟨bindings⟩ := s
  simp only [mapBodies, set]
  congr 1
  induction bindings with
  | nil => rfl
  | cons binding rest ih =>
    simp only [List.map_cons, bind]
    split
    · rfl
    · rw [List.map_cons, ih]

/-- A name without a value is the same error in both places. -/
theorem get_endMapped (label : Label) :
    EndMapped φ (Value.mapBodies φ) (s.get label) ((s.mapBodies φ).get label) := by
  refine (EndMapped.equal fun _ => value?_of_ofLabel).bind ?_
  rintro _ name rfl
  simp only [get?_mapBodies]
  cases s.get? name.key with
  | none => exact .error rfl
  | some v => exact .ok rfl

/-- Bindings can be set before or after the other bodies are put in, one after the other. -/
theorem foldl_mapBodies (bindings : List (Name × Value)) :
    (bindings.foldl (fun scope (name, v) => scope.set name v) s).mapBodies φ =
      (bindings.map (Prod.map id (Value.mapBodies φ))).foldl
        (fun scope (name, v) => scope.set name v) (s.mapBodies φ) := by
  induction bindings generalizing s with
  | nil => rfl
  | cons binding rest ih =>
    simp only [List.map_cons, List.foldl_cons, ih, set_mapBodies]
    rfl

/-- The scope of a call has the arguments with other bodies. Parameters are labels, so that it
cannot depend on bodies whether they are names. -/
theorem ofArguments_endMapped (params : List Label) (args : List Value) :
    EndMapped φ (Scope.mapBodies φ) (ofArguments params args)
      (ofArguments params (args.map (Value.mapBodies φ))) := by
  have hnames : ∀ f, params.mapM Name.ofLabel = .error f → f.value? = none := by
    intro f hf
    obtain ⟨name, -, hname⟩ := exists_of_mapM_error hf
    exact value?_of_ofLabel hname
  refine (EndMapped.equal hnames).bind ?_
  rintro _ names rfl
  refine .ok ?_
  rw [ofList, ofList, foldl_mapBodies, List.zip_map_right]
  rfl

end Scope

@[simp] theorem Machine.heap_mapBodies (m : Machine) :
    (m.mapBodies φ).heap = m.heap.mapBodies φ := rfl

/-- A line of the trace is the same text at the same depth. -/
theorem Machine.note_mapBodies (m : Machine) (e : Event) :
    (m.mapBodies φ).note e = (m.note e).mapBodies φ := by
  by_cases htracing : m.tracing = true
  · rw [note, note, if_pos htracing, if_pos (show (m.mapBodies φ).tracing = true from htracing)]
    rfl
  · rw [note, note, if_neg htracing, if_neg (show ¬(m.mapBodies φ).tracing = true from htracing)]

/-! ## Actions that commute with other bodies -/

/-- On a machine with other bodies the second action does what the first one does without them. -/
def Commutes (φ : List Node → List Node) (τ : α → β) (x : Action α) (y : Action β) : Prop :=
  ∀ m : Machine, y.on (m.mapBodies φ) = endMapBodies φ τ (x.on m)

namespace Commutes

variable {τ : α → β} {υ : γ → δ} {v u t : Value} {is args : List Value} {name : Label}

theorem pure {a : α} {b : β} (h : b = τ a) :
    Commutes φ τ (Pure.pure a : Action α) (Pure.pure b : Action β) := by
  subst h
  exact fun _ => rfl

theorem fail {f f' : Fault} (h : f' = f.mapBodies φ) :
    Commutes φ τ (Action.fail f : Action α) (Action.fail f' : Action β) := by
  subst h
  exact fun _ => rfl

/-- In turn: the second actions start on machines that differ as before, from results that differ by
`τ`. -/
theorem bind {x : Action α} {y : Action β} {f : α → Action γ} {g : β → Action δ}
    (hx : Commutes φ τ x y) (hf : ∀ a, Commutes φ υ (f a) (g (τ a))) :
    Commutes φ υ (x >>= f) (y >>= g) := by
  intro m
  rw [on_bind, on_bind, hx m]
  rcases x.on m with ⟨r, m'⟩
  cases r with
  | error s => rfl
  | ok a => exact hf a m'

theorem lift {r : Except Fault α} {r' : Except Fault β} (h : EndMapped φ τ r r') :
    Commutes φ τ (Action.lift r) (Action.lift r') := by
  cases h with
  | ok h => exact .pure h
  | error h => exact .fail h

/-- An action that only looks at the machine. -/
theorem look {F : Machine → Except Fault α} {G : Machine → Except Fault β}
    (h : ∀ m, EndMapped φ τ (F m) (G (m.mapBodies φ))) :
    Commutes φ τ (do Action.lift (F (← get))) (do Action.lift (G (← get))) :=
  fun m => lift (h m) m

/-- An action that goes on with what it saw. -/
theorem lookThen {F : Machine → Except Fault α} {G : Machine → Except Fault β}
    {f : α → Action γ} {g : β → Action δ} (h : ∀ m, EndMapped φ τ (F m) (G (m.mapBodies φ)))
    (hf : ∀ a, Commutes φ υ (f a) (g (τ a))) :
    Commutes φ υ (do f (← Action.lift (F (← get)))) (do g (← Action.lift (G (← get)))) :=
  fun m => bind (lift (h m)) hf m

theorem change {f g : Machine → Machine} (h : ∀ m, g (m.mapBodies φ) = (f m).mapBodies φ) :
    Commutes φ id (modify f) (modify g) := by
  intro m
  rw [on_modify, on_modify, h]
  rfl

theorem lookUp : Commutes φ (Value.mapBodies φ) (Action.lookUp name) (Action.lookUp name) :=
  look fun _ => Scope.get_endMapped name

theorem typeName : Commutes φ id (Action.typeName v) (Action.typeName (v.mapBodies φ)) :=
  look fun _ => Value.typeName_endMapped

theorem plainText : Commutes φ id (Action.plainText v) (Action.plainText (v.mapBodies φ)) :=
  look fun _ => Value.plainText_endMapped

/-- A condition is a truth value, or it is refused by its text and the name of its type. -/
theorem requireBool (construct : String) : Commutes φ id (MiniAlgol.requireBool construct v)
    (MiniAlgol.requireBool construct (v.mapBodies φ)) := by
  cases v with
  | bool b => exact .pure rfl
  | _ => exact .bind plainText fun _ => .bind typeName fun _ => .fail rfl

theorem checkInitial (tag : Tag) : Commutes φ id (MiniAlgol.checkInitial tag name v)
    (MiniAlgol.checkInitial tag name (v.mapBodies φ)) := by
  simp only [MiniAlgol.checkInitial, Value.hasTag_mapBodies]
  split
  · exact .pure rfl
  · exact .bind typeName fun _ => .bind plainText fun _ => .fail rfl

theorem bindName : Commutes φ id (Action.bind name v) (Action.bind name (v.mapBodies φ)) := by
  refine .bind (lift (EndMapped.equal fun _ => value?_of_ofLabel)) fun key => change fun m => ?_
  simp only [Machine.mapBodies, id, Scope.set_mapBodies]

theorem print (line : String) : Commutes φ id (Action.print line) (Action.print line) :=
  change fun _ => rfl

/-- The values are printed by their texts, which show no bodies. -/
theorem printValues :
    Commutes φ id (MiniAlgol.printValues args)
      (MiniAlgol.printValues (args.map (Value.mapBodies φ))) := by
  induction args with
  | nil => exact .pure rfl
  | cons v rest ih => exact .bind plainText fun _ => .bind (print _) fun _ => ih

theorem callBuiltin (b : Builtin) :
    Commutes φ (Value.mapBodies φ) (MiniAlgol.callBuiltin b name args)
      (MiniAlgol.callBuiltin b name (args.map (Value.mapBodies φ))) := by
  simp only [MiniAlgol.callBuiltin, List.length_map]
  split
  · split
    · exact .bind printValues fun _ => .pure rfl
    · exact .fail rfl
  · exact .bind printValues fun _ => .pure rfl

theorem callee : Commutes φ (Option.map (Value.mapBodies φ)) (MiniAlgol.callee name)
    (MiniAlgol.callee name) := by
  refine .bind (lift (EndMapped.equal fun _ => value?_of_ofLabel)) fun key m => ?_
  simp only [on_bind, on_get, on_pure, id, Machine.mapBodies, Scope.get?_mapBodies]
  -- the builtins have no bodies
  have hbuiltins : (Scope.builtins.get? key.key).map (Value.mapBodies φ) =
      Scope.builtins.get? key.key :=
    (Scope.get?_mapBodies key.key).symm
  cases m.scope.get? key.key with
  | none => exact congrArg (fun v => (Except.ok v, m.mapBodies φ)) hbuiltins.symm
  | some v => rfl

/-- A declaration is the one place where a body comes into the machine, so the routine is declared
with the other body there. -/
theorem declareRoutine (r : Routine) :
    Commutes φ id (MiniAlgol.declareRoutine name r)
      (MiniAlgol.declareRoutine name (r.mapBody φ)) := by
  have hid : Commutes φ id newId newId := by
    intro m
    rfl
  exact .bind hid fun _ => bindName

/-! ### Actions on the heap -/

theorem operate (op : Label) : Commutes φ (Value.mapBodies φ) (MiniAlgol.operate op v u)
    (MiniAlgol.operate op (v.mapBodies φ) (u.mapBodies φ)) :=
  look fun _ => Value.apply_endMapped

theorem readElement : Commutes φ (Value.mapBodies φ) (MiniAlgol.readElement name t is)
    (MiniAlgol.readElement name (t.mapBodies φ) (is.map (Value.mapBodies φ))) :=
  look fun _ => Heap.read_endMapped

/-- A new array holds no routines. -/
theorem allocateArray (elem : Tag) (extents : List Int) :
    Commutes φ id (MiniAlgol.allocateArray elem extents)
      (MiniAlgol.allocateArray elem extents) := by
  intro m
  simp only [MiniAlgol.allocateArray, on_bind]
  cases hx : ArrayObject.allocate elem extents with
  | error f =>
    have hf : f.mapBodies φ = f := Fault.mapBodies_of_value? (ArrayObject.allocate_value? hx)
    simp only [on_lift_error, endMapBodies, Except.map, Except.mapError, Stop.mapBodies, hf]
  | ok x =>
    have hundefined : x.mapBodies φ = x :=
      ArrayObject.mapBodies_of_isScalar fun v hv => by
        rw [ArrayObject.eq_undefined_of_mem_allocate hx hv]
        rfl
    simp only [on_lift_ok, allocate, on_bind, on_get, on_set, on_pure, endMapBodies,
      Machine.mapBodies, Heap.push_mapBodies, hundefined, Heap.size_mapBodies]
    rfl

/-- Whether there is room depends on the extents and on the number of elements. -/
theorem checkRoom (address : Nat) (count : Int) :
    Commutes φ id (MiniAlgol.checkRoom name address count)
      (MiniAlgol.checkRoom name address count) := by
  refine lookThen (fun _ => Heap.find_endMapped (t := .array address)) fun p => lift ?_
  simp only [ArrayObject.checkCapacity, ArrayObject.capacity_mapBodies]
  exact .equal fun _ => ArrayObject.checkCapacity_value?

theorem changeHeap {f g : Heap → Except Fault Heap}
    (h : ∀ heap, EndMapped φ (Heap.mapBodies φ) (f heap) (g (heap.mapBodies φ))) :
    Commutes φ id (Action.changeHeap f) (Action.changeHeap g) :=
  lookThen (fun m => h m.heap) fun _ => change fun _ => rfl

/-! ### Records -/

/-- A record that can be made in one place can be made in the other, and shows the same. -/
theorem record {level : Int} {event event' : Heap → Except Fault Event}
    (h : ∀ heap, EndMapped φ id (event heap) (event' (heap.mapBodies φ))) :
    Commutes φ id (Action.record level event) (Action.record level event') := by
  intro m
  have hevent := h m.heap
  rw [on_record, on_record]
  -- both machines have one level, so either both record or neither does
  by_cases hlevel : level ≤ m.level
  · rw [if_pos hlevel, if_pos (show level ≤ (m.mapBodies φ).level from hlevel)]
    simp only [Machine.heap_mapBodies]
    generalize event m.heap = r at hevent ⊢
    generalize event' (m.heap.mapBodies φ) = r' at hevent ⊢
    cases hevent with
    | ok he =>
      subst he
      simp only [Machine.note_mapBodies]
      rfl
    | error hf =>
      subst hf
      rfl
  · rw [if_neg hlevel, if_neg (show ¬level ≤ (m.mapBodies φ).level from hlevel)]
    rfl

/-- An event that is about no value. -/
theorem recordPlain {level : Int} {r : Except Fault Event}
    (hr : ∀ f, r = .error f → f.value? = none) :
    Commutes φ id (Action.record level fun _ => r) (Action.record level fun _ => r) :=
  record fun _ => .equal hr

theorem recordListing {level : Int} (event : String → Event) :
    Commutes φ id (Action.record level fun heap => return event (← v.listing heap))
      (Action.record level fun heap => return event (← (v.mapBodies φ).listing heap)) := by
  refine record fun heap => Value.listing_endMapped.bind ?_
  rintro _ text rfl
  exact .ok rfl

theorem recordElement {level : Int} (event : String → String → Event) :
    Commutes φ id
      (Action.record level fun heap =>
        return event (← Value.listings heap is) (← v.listing heap))
      (Action.record level fun heap =>
        return event (← Value.listings heap (is.map (Value.mapBodies φ)))
          (← (v.mapBodies φ).listing heap)) := by
  refine record fun heap => Value.listings_endMapped.bind ?_
  rintro _ shown rfl
  refine Value.listing_endMapped.bind ?_
  rintro _ text rfl
  exact .ok rfl

/-- The text of a condition, as the loops record it. -/
theorem recordCondition {level : Int} (event : String → Event) :
    Commutes φ id (Action.record level fun heap => return event (← v.plainText heap))
      (Action.record level fun heap => return event (← (v.mapBodies φ).plainText heap)) := by
  refine record fun heap => Value.plainText_endMapped.bind ?_
  rintro _ shown rfl
  exact .ok rfl

theorem passTest : Commutes φ id (MiniAlgol.passTest v) (MiniAlgol.passTest (v.mapBodies φ)) :=
  .bind (recordCondition _) fun _ => requireBool "while"

end Commutes

end MiniAlgol
