import MiniAlgol.Proofs.Heap.Filling
import MiniAlgol.Proofs.Run.Addressing
import MiniAlgol.Proofs.Run.Induction
import MiniAlgol.Proofs.Run.Rewriting
import MiniAlgol.Proofs.Run.WriteSet

/-!
# Arrays with initial elements

A declaration binds a new array before its initial elements are evaluated, so each of them is
evaluated on a machine whose array has the elements before it (`InitialValues`). Without a call in
it an element changes nothing but the trace, which no evaluation depends on (`TraceBlind`); so the
array is filled column after column until the list is at its end (`InitialValues.fills`), and more
elements than there is room for are refused before the first one is evaluated
(`initializer_fills_columns`).
-/

namespace MiniAlgol

open MiniAlgol.Action

/-! ## What was traced before -/

section TraceBlind

variable {α β : Type}

/-- With something else in the trace the action gives the same result and leaves the same machine,
the trace apart. -/
def TraceBlind (x : Action α) : Prop :=
  ∀ m traced, ∃ traced', x.on { m with traced } = ((x.on m).1, { (x.on m).2 with traced := traced' })

theorem traceBlind_pure (a : α) : TraceBlind (pure a : Action α) :=
  fun _ traced => ⟨traced, rfl⟩

theorem traceBlind_throw (s : Stop) : TraceBlind (throw s : Action α) :=
  fun _ traced => ⟨traced, rfl⟩

theorem traceBlind_lift (r : Except Fault α) : TraceBlind (lift r) := by
  cases r with
  | ok a => exact traceBlind_pure a
  | error f => exact traceBlind_throw (.fault f)

theorem traceBlind_modify {f : Machine → Machine}
    (hf : ∀ m traced, f { m with traced } = { f m with traced }) :
    TraceBlind (MonadState.modifyGet fun m => ((), f m) : Action Unit) :=
  fun m traced => ⟨traced, congrArg (Prod.mk (Except.ok ())) (hf m traced)⟩

theorem traceBlind_bind {x : Action α} {f : α → Action β} (hx : TraceBlind x)
    (hf : ∀ a, TraceBlind (f a)) : TraceBlind (x >>= f) := by
  intro m traced
  obtain ⟨traced', hon⟩ := hx m traced
  simp only [on_bind, hon]
  rcases x.on m with ⟨r, m'⟩
  cases r with
  | ok a => exact hf a m' traced'
  | error s => exact ⟨traced', rfl⟩

theorem traceBlind_look (F : Scope → Heap → Except Fault α) :
    TraceBlind (do
      let m ← get
      lift (F m.scope m.heap)) :=
  fun m => traceBlind_lift (F m.scope m.heap) m

theorem traceBlind_record (level : Int) (event : Heap → Except Fault Event) :
    TraceBlind (record level event) := by
  intro m traced
  simp only [on_record]
  split
  · cases event m.heap with
    | error f => exact ⟨traced, rfl⟩
    | ok e =>
      obtain ⟨before, hbefore⟩ := exists_note m e
      obtain ⟨after, hafter⟩ := exists_note { m with traced } e
      exact ⟨after, by simp only [hbefore, hafter]⟩
  · exact ⟨traced, rfl⟩

theorem traceBlind_inCall {x : Action α} (start : Scope) (hx : TraceBlind x) :
    TraceBlind (inCall start x) := by
  intro m traced
  obtain ⟨traced', hon⟩ := hx { m with scope := start } traced
  simp only [on_inCall, hon]
  rcases x.on { m with scope := start } with ⟨r, m'⟩
  cases r <;> exact ⟨traced', rfl⟩

theorem traceBlind_changeHeap (f : Heap → Except Fault Heap) : TraceBlind (changeHeap f) := by
  intro m traced
  simp only [changeHeap, on_bind, on_get]
  cases f m.heap <;> exact ⟨traced, rfl⟩

theorem inherited_traceBlind : Inherited TraceBlind where
  pure := traceBlind_pure
  fail f := traceBlind_throw (.fault f)
  outOfFuel := traceBlind_throw .outOfFuel
  bind := traceBlind_bind
  look := traceBlind_look
  bindName _ _ := traceBlind_bind (traceBlind_lift _) fun _ => traceBlind_modify fun _ _ => rfl
  print _ := traceBlind_modify fun _ _ => rfl
  newId _ traced := ⟨traced, rfl⟩
  allocate _ _ traced := ⟨traced, rfl⟩
  changeHeap := traceBlind_changeHeap
  record _ _ := traceBlind_record _ _
  activate hx := traceBlind_bind (traceBlind_lift _) fun _ =>
    traceBlind_bind (traceBlind_modify fun _ _ => rfl) fun _ =>
      traceBlind_bind (traceBlind_record _ _) fun _ =>
        traceBlind_bind (traceBlind_inCall _ hx) fun _ =>
          traceBlind_bind (traceBlind_record _ _) fun _ => traceBlind_pure _

end TraceBlind

/-! ## Initial elements -/

/-- The machine with a new array under a name. -/
def Machine.withArray (m : Machine) (name : Name) (x : ArrayObject) : Machine :=
  { m with scope := m.scope.set name (.array m.heap.size), heap := m.heap.push x }

/-- Initial elements without calls and their values, which have the type of the elements. Each is
evaluated on the machine where the array, named already, is filled with the values `before` it. -/
inductive InitialValues (m : Machine) (name : Name) (x : ArrayObject) :
    List Value → List Node → List Value → Prop where
  | nil {before : List Value} : InitialValues m name x before [] []
  | cons {before : List Value} {element : Node} {v : Value} {elements : List Node}
      {values : List Value} (hcall : element.hasCall = false) (htag : v.hasTag x.elem)
      (hvalue : ∃ fuel, ((evaluate fuel element).on (m.withArray name (x.filled before))).1 = .ok v)
      (hrest : InitialValues m name x (before ++ [v]) elements values) :
      InitialValues m name x before (element :: elements) (v :: values)

section Filling

variable {m : Machine} {name : Name} {label : Label} {x : ArrayObject} {elem : Tag}
  {extents : List Int} {rows cols : Int} {elements : List Node} {before values : List Value}

theorem InitialValues.length_eq (h : InitialValues m name x before elements values) :
    values.length = elements.length := by
  induction h with
  | nil => rfl
  | cons _ _ _ _ ih => rw [List.length_cons, List.length_cons, ih]

/-- An expression without a call that has a value has it with more fuel, whatever was traced, and
changes the trace only. -/
theorem on_evaluate_of_hasCall {n : Node} {v : Value} {f g : Nat} (hcall : n.hasCall = false)
    (h : ((evaluate f n).on m).1 = .ok v) (hfg : f ≤ g) (traced : Option (List TraceLine)) :
    ∃ traced', (evaluate g n).on { m with traced } = (.ok v, { m with traced := traced' }) := by
  have hends : ¬(evaluate f n).Starves m := by
    intro hstarves
    rw [Action.Starves, h] at hstarves
    cases hstarves
  have hkeeps : Keeps (fun m : Machine => { m with traced := none }) (evaluate g n) :=
    keeps_evaluate (fun _ _ => rfl) g n fun hcall' => by
      rw [hcall] at hcall'
      cases hcall'
  obtain ⟨traced', hon⟩ := (inherited_traceBlind.runs g).evaluate n m traced
  refine ⟨traced', ?_⟩
  have hsame := hkeeps m
  rw [evaluate_of_le hfg hends] at hon hsame
  rw [hon, h]
  refine congrArg (Prod.mk (Except.ok v)) ?_
  exact congrArg (fun m : Machine => { m with traced := traced' }) hsame

/-- Storing an initial element changes the new array and nothing else. -/
theorem on_fill_withArray (label : Label) (index : Int) (v : Value) (m : Machine) (name : Name)
    (x : ArrayObject) (traced : Option (List TraceLine)) :
    (changeHeap fun heap => Heap.fill heap label m.heap.size index v).on
        { m.withArray name x with traced } =
      match x.fill (m.heap.push x) label index v with
      | .ok y => (.ok (), { m.withArray name y with traced })
      | .error f => (.error (.fault f), { m.withArray name x with traced }) := by
  simp only [Machine.withArray, changeHeap, on_bind, on_get, Heap.fill, Heap.update,
    Array.getElem?_push_size]
  cases x.fill (m.heap.push x) label index v with
  | error f => rfl
  | ok y =>
    have hpush : (m.heap.push x).setIfInBounds m.heap.size y = m.heap.push y := by
      refine Array.ext_getElem? fun i => ?_
      rw [Array.getElem?_setIfInBounds, Array.getElem?_push, Array.getElem?_push]
      grind
    simp only [Except.map, on_lift_ok, hpush, on_modify]

/-- Storing the next initial element fills the array with one more. -/
theorem on_fill_filled (hx : x.HasShape elem extents) (hrows : 0 ≤ x.extents.1) {v : Value}
    (hv : v.hasTag x.elem) (hroom : (before.length : Int) < x.capacity) (label : Label)
    (traced : Option (List TraceLine)) :
    (changeHeap fun heap => Heap.fill heap label m.heap.size before.length v).on
        { m.withArray name (x.filled before) with traced }
      = (.ok (), { m.withArray name (x.filled (before ++ [v])) with traced }) := by
  rw [on_fill_withArray, hx.fill_filled hrows hv hroom]

/-- A value of another type is not stored. -/
theorem on_fill_otherType {v : Value} (hv : v.hasTag x.elem = false) (label : Label)
    (index : Int) (m : Machine) (name : Name) (traced : Option (List TraceLine)) :
    (changeHeap fun heap => Heap.fill heap label m.heap.size index v).on
        { m.withArray name x with traced }
      = (.error (.fault (ArrayObject.mismatchFault (m.withArray name x).heap label index x.elem v)),
        { m.withArray name x with traced }) := by
  rw [on_fill_withArray, ArrayObject.fill_otherType (m.heap.push x) label hv]
  rfl

/-- An element that has a value, for which there is a place, is stored if it has the type; then come
the elements after it. -/
theorem on_fillFrom_cons (hx : x.HasShape elem extents) (hrows : 0 ≤ x.extents.1)
    (hroom : (before.length : Int) < x.capacity) {fuel : Nat} {element : Node} {v : Value}
    {m₀ : Machine} {traced : Option (List TraceLine)}
    (hvalue : (evaluate fuel element).on m₀
      = (.ok v, { m.withArray name (x.filled before) with traced }))
    (label : Label) (rest : List Node) :
    (fillFrom (fuel + 1) label m.heap.size before.length (element :: rest)).on m₀ =
      if v.hasTag x.elem then
        (fillFrom fuel label m.heap.size (before ++ [v]).length rest).on
          { m.withArray name (x.filled (before ++ [v])) with traced }
      else
        (.error (.fault (ArrayObject.mismatchFault (m.withArray name (x.filled before)).heap label
          before.length x.elem v)), { m.withArray name (x.filled before) with traced }) := by
  rw [fillFrom, on_bind, hvalue, List.length_append, List.length_singleton]
  simp only
  rw [on_bind]
  cases htag : v.hasTag x.elem with
  | true => rw [on_fill_filled hx hrows htag hroom, if_pos rfl]
  | false =>
    rw [on_fill_otherType (by rw [ArrayObject.elem_filled]; exact htag), ArrayObject.elem_filled]
    rfl

/-- Elements that have values and that there is room for fill the array with their values. -/
theorem InitialValues.fills (h : InitialValues m name x before elements values)
    (hx : x.HasShape elem extents) (hrows : 0 ≤ x.extents.1)
    (hroom : (before.length + elements.length : Int) ≤ x.capacity) (label : Label) :
    ∃ enough, ∀ fuel ≥ enough, ∀ traced, ∃ traced',
      (fillFrom fuel label m.heap.size before.length elements).on
          { m.withArray name (x.filled before) with traced }
        = (.ok (), { m.withArray name (x.filled (before ++ values)) with traced := traced' }) := by
  induction h with
  | nil =>
    refine ⟨0, fun fuel _ traced => ⟨traced, ?_⟩⟩
    rw [fillFrom_nil, List.append_nil, on_pure]
  | @cons before element v elements values hcall htag hvalue _ ih =>
    rw [List.length_cons] at hroom
    obtain ⟨f, hvalue⟩ := hvalue
    obtain ⟨enough, hrest⟩ := ih (by rw [List.length_append, List.length_singleton]; omega)
    refine ⟨max f enough + 1, fun fuel hfuel traced => ?_⟩
    obtain ⟨fuel, rfl⟩ : ∃ g, fuel = g + 1 := ⟨fuel - 1, by omega⟩
    obtain ⟨traced₁, hon⟩ := on_evaluate_of_hasCall hcall hvalue (by omega : f ≤ fuel) traced
    obtain ⟨traced₂, hon'⟩ := hrest fuel (by omega) traced₁
    rw [List.append_assoc] at hon'
    refine ⟨traced₂, ?_⟩
    rw [on_fillFrom_cons hx hrows (by omega) hon, if_pos htag]
    exact hon'

/-! ## Declarations -/

/-- A new array that is filled with values has each of them at its position. -/
theorem ArrayObject.HasShape.read_withArray (hx : x.HasShape elem extents) (label : Label)
    (values : List Value) (m : Machine) (name : Name) {i j : Int} (hr : x.InRange i j) :
    Heap.read (m.withArray name (x.filled values)).heap label (.array m.heap.size)
      [.int i, .int j] = .ok (values.getD (i + j * x.extents.1).toNat .undefined) := by
  have hlast : (m.heap.push (x.filled values))[m.heap.size]? = some (x.filled values) :=
    Array.getElem?_push_size
  have hposition : Heap.position (x.filled values) label [i, j] = .ok (i, j) :=
    Heap.position_ok_iff.2 ⟨rfl, ArrayObject.inRange_filled.2 hr⟩
  have hread : Heap.read (m.heap.push (x.filled values)) label (.array m.heap.size)
      ([i, j].map Value.int) = _ := Heap.read_array hlast
  rw [hposition, ok_bind, hx.shaped.get_filled hx.filled.shaped hr] at hread
  exact hread

/-- Extents that are not negative and that are lengths a list of the host can have, as rows and
columns. Without rows it does not matter how many columns there are. Whether there is memory for so
many elements is left out. -/
inductive HostExtents : List Int → Int → Int → Prop where
  | line {length : Int} (hlength : 0 ≤ length) (hhost : isLength length) :
    HostExtents [length] length 1
  | grid {rows cols : Int} (hrows : 0 ≤ rows) (hcols : 0 ≤ cols)
      (hhost : rows = 0 ∨ isLength cols) : HostExtents [rows, cols] rows cols

theorem HostExtents.exists_allocate (h : HostExtents extents rows cols) (elem : Tag) :
    ∃ x, ArrayObject.allocate elem extents = .ok x ∧ x.extents = (rows, cols) ∧
      x.elem = elem ∧ 0 ≤ rows := by
  cases h with
  | line hlength hhost =>
    refine ⟨.line elem (undefinedCells rows), if_pos hhost, ?_, rfl, hlength⟩
    rw [ArrayObject.extents, undefinedCells, Array.size_replicate, Int.toNat_of_nonneg hlength]
  | grid hrows hcols hhost =>
    by_cases hempty : rows ≤ 0
    · exact ⟨.grid elem rows cols #[], if_pos hempty, rfl, rfl, hrows⟩
    · have hhost : isLength cols := hhost.resolve_left (by omega)
      refine ⟨.grid elem rows cols (Array.replicate rows.toNat (undefinedCells cols)), ?_, rfl, rfl,
        hrows⟩
      simp only [ArrayObject.allocate, if_neg hempty, if_pos hhost]

/-- A declaration with initial elements makes the array, names it, and goes on to its elements. -/
theorem on_arrayDecl (hname : Name.ofLabel label = .ok name)
    (hx : ArrayObject.allocate elem extents = .ok x) (fuel : Nat) (elements : List Node) :
    (execute (fuel + 1) (.arrayDecl label elem extents (some elements))).on m = (Action.on (do
        lift (x.checkCapacity label elements.length)
        fillFrom fuel label m.heap.size 0 elements
        record 2 fun _ =>
          return .declareArray label.shown elem.name (bracketed (← extents.mapM integerText))
        return none) (m.withArray name x)) := by
  have hfind : Heap.find (m.heap.push x) label (.array m.heap.size) = .ok (m.heap.size, x) := by
    simp only [Heap.find, Array.getElem?_push_size]
  rw [execute_arrayDecl]
  simp only [allocateArray, initialElements, checkRoom, bind_assoc, hx]
  simp only [allocate, Action.bind, on_bind, on_lift_ok, on_get, on_set, on_pure, hname, on_modify,
    hfind, Machine.withArray]

/-- More initial elements than the array has room for are refused when the array is there and
named, and before any of them is evaluated. -/
theorem on_arrayDecl_tooMany (hname : Name.ofLabel label = .ok name)
    (hx : ArrayObject.allocate elem extents = .ok x) (hcapacity : 0 ≤ x.capacity)
    (hmany : x.capacity < elements.length) (hcount : elements.length < Numeral.writeBound)
    (fuel : Nat) :
    (execute (fuel + 1) (.arrayDecl label elem extents (some elements))).on m =
      (.error (.fault (.sizeExceeded label x.capacity elements.length)), m.withArray name x) := by
  have hcheck : x.checkCapacity label elements.length
      = .error (.sizeExceeded label x.capacity elements.length) := by
    rw [ArrayObject.checkCapacity, if_pos hmany, integerText_eq (by omega), ok_bind,
      integerText_eq (by omega), ok_bind]
  rw [on_arrayDecl hname hx, hcheck, on_bind, on_lift_error]

/-- The record of an array changes the trace only, and is made unless an extent is too long. -/
theorem on_recordArray (label : Label) (elem : Tag) (extents : List Int) (m : Machine) :
    ∃ r traced, (Action.on (do
        record 2 fun _ =>
          return .declareArray label.shown elem.name (bracketed (← extents.mapM integerText))
        return none) m : Except Stop (Option Value) × Machine) = (r, { m with traced }) ∧
      (r = .ok none ∨ r = .error (.fault (.numeral .tooLongToWrite)) ∧
        ∃ n ∈ extents, Numeral.writeBound ≤ n.natAbs) := by
  rw [on_bind, on_record]
  by_cases hlevel : 2 ≤ m.level
  · simp only [if_pos hlevel]
    cases htexts : extents.mapM integerText with
    | error f =>
      obtain ⟨n, hn, hlong⟩ := exists_of_mapM_error htexts
      cases Value.integerText_error hlong
      exact ⟨_, m.traced, rfl, .inr ⟨rfl, n, hn, le_natAbs_of_integerText hlong⟩⟩
    | ok texts =>
      obtain ⟨traced, hnote⟩ := exists_note m
        (.declareArray label.shown elem.name (bracketed texts))
      refine ⟨.ok none, traced, ?_, .inl rfl⟩
      simp only [ok_bind, pure_eq_ok, on_pure, hnote]
  · simp only [if_neg hlevel]
    exact ⟨.ok none, m.traced, rfl, .inl rfl⟩

/-- With room for them, initial elements that have values fill the array with those. Then the
declaration is done, unless its record has an extent that is too long to be written. -/
theorem on_arrayDecl_filled (hname : Name.ofLabel label = .ok name)
    (hx : ArrayObject.allocate elem extents = .ok x) (hrows : 0 ≤ x.extents.1)
    (hroom : (elements.length : Int) ≤ x.capacity)
    (hvalues : InitialValues m name x [] elements values) :
    ∃ enough, ∀ fuel ≥ enough,
      ∃ r traced, (execute fuel (.arrayDecl label elem extents (some elements))).on m
          = (r, { m.withArray name (x.filled values) with traced }) ∧
        ((∀ n ∈ extents, n.natAbs < Numeral.writeBound) → r = .ok none) := by
  have hshape := ArrayObject.hasShape_allocate hx
  have hcheck : x.checkCapacity label elements.length = .ok () := if_neg (by omega)
  obtain ⟨enough, hfills⟩ := hvalues.fills hshape hrows (by simpa using hroom) label
  refine ⟨enough + 1, fun fuel hfuel => ?_⟩
  obtain ⟨fuel, rfl⟩ : ∃ g, fuel = g + 1 := ⟨fuel - 1, by omega⟩
  obtain ⟨traced, hfill⟩ := hfills fuel (by omega) m.traced
  rw [ArrayObject.filled_nil hx, List.nil_append] at hfill
  rw [on_arrayDecl hname hx, hcheck, on_bind, on_lift_ok]
  simp only
  rw [on_bind, show (m.withArray name x) = { m.withArray name x with traced := m.traced } from rfl,
    show (0 : Nat) = ([] : List Value).length from rfl, hfill]
  obtain ⟨r, traced', hrecord, hdone⟩ := on_recordArray label elem extents
    { m.withArray name (x.filled values) with traced }
  refine ⟨r, traced', hrecord, fun hshort => ?_⟩
  rcases hdone with hdone | ⟨-, n, hn, hlong⟩
  · exact hdone
  · exact absurd (hshort n hn) (Nat.not_lt.2 hlong)

/-- A declaration with more initial elements than its extents have room for is refused before one
of them is evaluated. Otherwise, when the elements have values of the type, the array has them
column after column and is undefined from there on, and every index of an element is that of one
position. The extents are lengths that a list of the host can have; and the message of a refusal
counts the elements, of which no list has more than can be written. -/
theorem initializer_fills_columns (hname : Name.ofLabel label = .ok name)
    (hextents : HostExtents extents rows cols) (elem : Tag) (elements : List Node) (m : Machine) :
    ∃ x, ArrayObject.allocate elem extents = .ok x ∧
      (rows * cols < elements.length → elements.length < Numeral.writeBound → ∀ fuel,
        (execute (fuel + 1) (.arrayDecl label elem extents (some elements))).on m =
          (.error (.fault (.sizeExceeded label (rows * cols) elements.length)),
            m.withArray name x)) ∧
      (elements.length ≤ rows * cols → ∀ values, InitialValues m name x [] elements values →
        (∃ enough, ∀ fuel ≥ enough, ∃ r m',
          (execute fuel (.arrayDecl label elem extents (some elements))).on m = (r, m') ∧
          ((∀ n ∈ extents, n.natAbs < Numeral.writeBound) → r = .ok none) ∧
          m'.scope.get? name.key = some (.array m.heap.size) ∧
          ∀ i j, 0 ≤ i → i < rows → 0 ≤ j → j < cols →
            Heap.read m'.heap label (.array m.heap.size) [.int i, .int j]
              = .ok (values.getD (i + j * rows).toNat .undefined)) ∧
        ∀ index : Nat, index < values.length →
          ∃! p : Int × Int, (0 ≤ p.1 ∧ p.1 < rows ∧ 0 ≤ p.2 ∧ p.2 < cols) ∧
            p.1 + p.2 * rows = index) := by
  obtain ⟨x, hx, hrowscols, -, hrows⟩ := hextents.exists_allocate elem
  have hcapacity : x.capacity = rows * cols := by rw [ArrayObject.capacity, hrowscols]
  have hrange : ∀ i j, x.InRange i j ↔ 0 ≤ i ∧ i < rows ∧ 0 ≤ j ∧ j < cols := by
    intro i j
    rw [ArrayObject.InRange, hrowscols]
  have hcols : 0 ≤ cols := by cases hextents <;> omega
  have hrows' : 0 ≤ x.extents.1 := by rw [hrowscols]; exact hrows
  refine ⟨x, hx, fun hmany hcount fuel => ?_, fun hroom values hvalues => ⟨?_, fun index hindex => ?_⟩⟩
  · rw [← hcapacity] at hmany ⊢
    exact on_arrayDecl_tooMany hname hx (hcapacity ▸ Int.mul_nonneg hrows hcols) hmany hcount fuel
  · rw [← hcapacity] at hroom
    obtain ⟨enough, hfilled⟩ := on_arrayDecl_filled hname hx hrows' hroom hvalues
    refine ⟨enough, fun fuel hfuel => ?_⟩
    obtain ⟨r, traced, hon, hdone⟩ := hfilled fuel hfuel
    refine ⟨r, _, hon, hdone, ?_, fun i j hi hilt hj hjlt => ?_⟩
    · simp only [Machine.withArray, Scope.get?_set, ↓reduceIte]
    · have hread := (ArrayObject.hasShape_allocate hx).read_withArray label values m name
        ((hrange i j).2 ⟨hi, hilt, hj, hjlt⟩)
      rw [hrowscols] at hread
      exact hread
  · have hlt : (index : Int) < x.capacity := by
      have hlength := hvalues.length_eq
      omega
    have hunique := ArrayObject.existsUnique_position hrows' (Int.natCast_nonneg index) hlt
    simpa only [hrange, hrowscols] using hunique

/-- Three elements for an array with room for four, of which the second reads the first. -/
def threeElements : List Node :=
  [.literal "5" "int", .arrayAccess "a" [.literal "0" "int"], .literal "7" "int"]

theorem initializer_fills_columns_partial :
    (∃ fuel m', (execute fuel (.arrayDecl "a" .int [2, 2] (some threeElements))).on {}
        = (.ok none, m') ∧
      Heap.read m'.heap "a" (.array 0) [.int 1, .int 0] = .ok (.int 5) ∧
      Heap.read m'.heap "a" (.array 0) [.int 0, .int 1] = .ok (.int 7) ∧
      Heap.read m'.heap "a" (.array 0) [.int 1, .int 1] = .ok .undefined) ∧
    ∃ m', (execute 1 (.arrayDecl "a" .int [2, 2] (some (threeElements ++ threeElements)))).on {}
      = (.error (.fault (.sizeExceeded "a" 4 6)), m') := by
  have hname : Name.ofLabel "a" = .ok (Name.ofWord "a") := rfl
  have hextents : HostExtents [2, 2] 2 2 := .grid (by decide) (by decide) (.inr (by decide))
  obtain ⟨x, hx, -, hfills⟩ := initializer_fills_columns hname hextents .int threeElements {}
  obtain ⟨_, -, hmany, -⟩ :=
    initializer_fills_columns hname hextents .int (threeElements ++ threeElements) {}
  have hsix : 6 < Numeral.writeBound :=
    Numeral.lt_writeBound (by decide : 1 ≤ Numeral.maxDigits) (by decide)
  refine ⟨?_, _, hmany (by decide) hsix 0⟩
  cases hx
  have hvalues : InitialValues {} (Name.ofWord "a")
      (.grid .int 2 2 (Array.replicate 2 (undefinedCells 2))) [] threeElements
      [.int 5, .int 5, .int 7] :=
    .cons rfl rfl ⟨1, rfl⟩ (.cons rfl rfl ⟨2, rfl⟩ (.cons rfl rfl ⟨1, rfl⟩ .nil))
  obtain ⟨⟨enough, hrun⟩, -⟩ := hfills (by decide) _ hvalues
  obtain ⟨r, m', hon, hdone, -, hread⟩ := hrun enough le_rfl
  have htwo : (2 : Int).natAbs < Numeral.writeBound :=
    Numeral.lt_writeBound (by decide : 1 ≤ Numeral.maxDigits) (by decide)
  cases hdone (by simpa using htwo)
  exact ⟨enough, m', hon, hread 1 0 (by decide) (by decide) (by decide) (by decide),
    hread 0 1 (by decide) (by decide) (by decide) (by decide),
    hread 1 1 (by decide) (by decide) (by decide) (by decide)⟩

/-- An array longer than any list of the host is not made: there is room for the one element, which
has a value of the type, but nothing can be read afterwards. -/
theorem initializer_beyond_host :
    (1 : Int) ≤ 0x8000000000000000 * 1 ∧
    (evaluate 1 (.literal "7" "int")).on {} = (.ok (.int 7), {}) ∧
    (execute 2 (.arrayDecl "a" .int [0x8000000000000000] (some [.literal "7" "int"]))).on {}
      = (.error (.fault .extentOutOfRange), {}) ∧
    ({} : Machine).scope.get "a" = .error (.undefinedVariable "a") := by
  refine ⟨by decide, rfl, rfl, rfl⟩

end Filling

end MiniAlgol
