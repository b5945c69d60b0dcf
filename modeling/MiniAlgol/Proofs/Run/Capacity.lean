import MiniAlgol.Proofs.Run.Initializers
import MiniAlgol.Proofs.Source.Literals

/-!
# Room for initial elements

The number of initial elements is compared with the product of the extents, while the elements go
into lists that have as many places as the extents say, and none where an extent is negative. Of
two negative extents the product is positive: then the comparison lets elements through for which
there is no place (`Overcommitted`), and the first of them that is to be stored is missing its row.
`capacity_guards_fill` says that this is the only way past the comparison, for one or two extents of
any sign, and what else can stop a declaration whose initial elements are literals.
-/

namespace MiniAlgol

open MiniAlgol.Action

/-- Two negative extents, and no more elements than their product, though none has a place. -/
def Overcommitted (extents : List Int) (count : Nat) : Prop :=
  ∃ rows cols : Int, extents = [rows, cols] ∧ rows < 0 ∧ cols < 0 ∧
    0 < count ∧ (count : Int) ≤ rows * cols

/-- A literal whose value is of the type. -/
def Storable (elem : Tag) (e : Node) : Prop :=
  ∃ text kind v, e = .literal text kind ∧ literalValue text kind = .ok v ∧ v.hasTag elem

/-- Why storing literals in an array stops, after those that come first: the next one has no value,
and if it comes from a source text it has too many digits; or its value is of another type. The error
then tells at which place it stands and of what type it is. -/
inductive LiteralFault (label : Label) (elem : Tag) (elements : List Node) : Fault → Prop where
  | noValue {before after : List Node} {text kind : Label} {f : Fault}
      (helements : elements = before ++ .literal text kind :: after)
      (hbefore : ∀ e ∈ before, Storable elem e) (hf : literalValue text kind = .error f)
      (hdigits : ∀ t : Token, t.Fits → Source.literal? t = some (.literal text kind) →
        ∃ count, f = .literal (.numeral (.tooManyDigits count))) :
      LiteralFault label elem elements f
  | otherType {before after : List Node} {text kind : Label} {v : Value} {actual : String}
      (helements : elements = before ++ .literal text kind :: after)
      (hbefore : ∀ e ∈ before, Storable elem e) (hvalue : literalValue text kind = .ok v)
      (htag : v.hasTag elem = false) (hactual : ∀ heap, v.typeName heap = .ok actual) :
      LiteralFault label elem elements (.elementMismatch label before.length elem actual)

/-- The number that initial elements are compared with. A list has no negative length, but the
product of two extents is taken of them as they are. -/
def declaredCapacity : List Int → Int
  | [length] => max length 0
  | [rows, cols] => rows * cols
  | _ => 0

/-- How a declaration ends whose initial elements are literals. -/
inductive DeclarationEnd (label : Label) (elem : Tag) (extents : List Int) (elements : List Node) :
    Except Stop (Option Value) → Prop where
  | done : DeclarationEnd label elem extents elements (.ok none)
  | sizeExceeded (hmany : declaredCapacity extents < elements.length) :
      DeclarationEnd label elem extents elements
        (.error (.fault (.sizeExceeded label (declaredCapacity extents) elements.length)))
  | filling {f : Fault} (hf : LiteralFault label elem elements f) :
      DeclarationEnd label elem extents elements (.error (.fault f))
  /-- An extent, the capacity or the count has more digits than the host writes. -/
  | tooLongToWrite {n : Int} (hlong : Numeral.writeBound ≤ n.natAbs)
      (hn : n ∈ extents ∨ n = elements.length ∨ n = declaredCapacity extents) :
      DeclarationEnd label elem extents elements (.error (.fault (.numeral .tooLongToWrite)))
  /-- The host has no lists of this length. -/
  | extentOutOfRange (hextent : ∃ n ∈ extents, isLength n = false) :
      DeclarationEnd label elem extents elements (.error (.fault .extentOutOfRange))
  /-- The array is there, but what should name it is no name. -/
  | notName {f : Fault} (hname : Name.ofLabel label = .error f) :
      DeclarationEnd label elem extents elements (.error (.fault f))
  | noElement (hover : Overcommitted extents elements.length) :
      DeclarationEnd label elem extents elements (.error (.fault .noElement))

variable {m : Machine} {name : Name} {label : Label} {elem : Tag} {extents : List Int}
  {x : ArrayObject} {rows cols : Int} {elements done rest : List Node} {values : List Value}
  {text kind : Label} {v : Value} {f : Fault} {fuel : Nat}

/-! ## Literals -/

theorem literalFault_of_error (hdone : ∀ e ∈ done, Storable elem e)
    (hf : literalValue text kind = .error f) :
    LiteralFault label elem (done ++ .literal text kind :: rest) f :=
  .noValue rfl hdone hf fun _ ht hx => Source.literalValue_error ht hx hf

/-- A literal is no array, so its type always has a name. -/
theorem literalFault_of_otherType (hdone : ∀ e ∈ done, Storable elem e)
    (hvalue : literalValue text kind = .ok v) (htag : v.hasTag elem = false) (heap : Heap) :
    LiteralFault label elem (done ++ .literal text kind :: rest)
      (ArrayObject.mismatchFault heap label done.length elem v) := by
  obtain ⟨actual, hactual⟩ := Value.exists_typeName_of_isScalar (Simulation.literalValue_ok hvalue)
  rw [ArrayObject.mismatchFault, hactual]
  exact .otherType rfl hdone hvalue htag hactual

theorem on_evaluate_literal (fuel : Nat) (text kind : Label) (m : Machine) :
    (evaluate (fuel + 1) (.literal text kind)).on m =
      match literalValue text kind with
      | .ok v => (.ok v, m)
      | .error f => (.error (.fault f), m) := by
  rw [evaluate]
  cases literalValue text kind <;> rfl

/-! ## Filling -/

/-- With room for them, literals fill the array until one of them has no value of the type. -/
theorem fillFrom_literals (hx : x.HasShape elem extents) (hrows : 0 ≤ x.extents.1)
    (hliterals : ∀ e ∈ rest, ∃ text kind, e = Node.literal text kind)
    (hdone : ∀ e ∈ done, Storable x.elem e) (hlength : values.length = done.length)
    (hroom : (done.length + rest.length : Int) ≤ x.capacity) (hfuel : rest.length < fuel) :
    ∃ r stored, (fillFrom fuel label m.heap.size values.length rest).on
        (m.withArray name (x.filled values)) = (r, m.withArray name (x.filled stored)) ∧
      (r = .ok () ∨ ∃ f, r = .error (.fault f) ∧ LiteralFault label x.elem (done ++ rest) f) := by
  -- the literals before those of the induction are stored already
  induction rest generalizing done values fuel with
  | nil =>
    rw [fillFrom_nil]
    exact ⟨_, values, rfl, .inl rfl⟩
  | cons e rest ih =>
    rw [List.forall_mem_cons] at hliterals
    rw [List.length_cons] at hroom hfuel
    obtain ⟨⟨text, kind, rfl⟩, hliterals⟩ := hliterals
    obtain ⟨fuel, rfl⟩ : ∃ g, fuel = g + 2 := ⟨fuel - 2, by omega⟩
    have heval := on_evaluate_literal fuel text kind (m.withArray name (x.filled values))
    cases hvalue : literalValue text kind with
    | error f =>
      rw [fillFrom, on_bind, heval, hvalue]
      exact ⟨_, values, rfl, .inr ⟨f, rfl, literalFault_of_error hdone hvalue⟩⟩
    | ok v =>
      rw [hvalue] at heval
      rw [on_fillFrom_cons hx hrows (by omega) heval]
      cases htag : v.hasTag x.elem with
      | false =>
        refine ⟨_, values, rfl, .inr ⟨_, rfl, ?_⟩⟩
        rw [hlength]
        exact literalFault_of_otherType hdone hvalue htag _
      | true =>
        have hsnoc : ∀ e ∈ done ++ [.literal text kind], Storable x.elem e := by
          rw [List.forall_mem_append, List.forall_mem_singleton]
          exact ⟨hdone, text, kind, v, rfl, hvalue, htag⟩
        have hlength' : (values ++ [v]).length = (done ++ [Node.literal text kind]).length := by
          rw [List.length_append, List.length_append, hlength]
          rfl
        have hdoneLength : (done ++ [Node.literal text kind]).length = done.length + 1 :=
          List.length_append
        obtain ⟨r, stored, hrest, hends⟩ := ih hliterals hsnoc hlength'
          (by omega) (by omega : rest.length < fuel + 1)
        rw [List.append_assoc] at hends
        exact ⟨r, stored, hrest, hends⟩

/-- Where the number of rows is negative a first element of the type has no row. -/
theorem on_fill_negativeRows (hrows : rows < 0) (cols : Int) (elem : Tag) (v : Value)
    (label : Label) (m : Machine) (name : Name) :
    (changeHeap fun heap => Heap.fill heap label m.heap.size 0 v).on
        (m.withArray name (.grid elem rows cols #[])) =
      (if v.hasTag elem then .error (.fault .noElement)
        else .error (.fault (ArrayObject.mismatchFault
          (m.withArray name (.grid elem rows cols #[])).heap label 0 elem v)),
        m.withArray name (.grid elem rows cols #[])) := by
  -- zero is its own remainder and quotient whatever the rows, so the first row is looked for
  have hposition : (ArrayObject.grid elem rows cols #[]).fillPosition 0 = .ok (0, 0) := by
    rw [ArrayObject.fillPosition, ArrayObject.extents, if_neg (by omega : ¬rows = 0),
      Int.zero_fmod, Int.zero_fdiv]
  cases htag : v.hasTag elem with
  | true =>
    have hon := on_fill_withArray label 0 v m name (.grid elem rows cols #[]) m.traced
    rw [ArrayObject.fill, ArrayObject.elem, hposition, htag] at hon
    exact hon
  | false =>
    exact on_fill_otherType (x := .grid elem rows cols #[]) htag label 0 m name m.traced

/-- So literals in it stop at the first one, which has no value of the type or no row. -/
theorem fillFrom_negativeRows (hrows : rows < 0) (hfuel : 2 ≤ fuel) :
    (fillFrom fuel label m.heap.size 0 (.literal text kind :: rest)).on
        (m.withArray name (.grid elem rows cols #[])) =
      (match literalValue text kind with
        | .ok v =>
          if v.hasTag elem then .error (.fault .noElement)
          else .error (.fault (ArrayObject.mismatchFault
            (m.withArray name (.grid elem rows cols #[])).heap label 0 elem v))
        | .error f => .error (.fault f),
        m.withArray name (.grid elem rows cols #[])) := by
  obtain ⟨fuel, rfl⟩ : ∃ g, fuel = g + 2 := ⟨fuel - 2, by omega⟩
  rw [fillFrom, on_bind, on_evaluate_literal]
  cases literalValue text kind with
  | error f => rfl
  | ok v =>
    simp only [Nat.cast_zero]
    rw [on_bind, on_fill_negativeRows hrows]
    cases v.hasTag elem <;> rfl

/-! ## Declarations -/

/-- Only a grid has a negative number of rows, and then it has no row. -/
theorem allocate_negativeRows (hx : ArrayObject.allocate elem extents = .ok x)
    (hrows : x.extents.1 < 0) :
    ∃ rows cols, extents = [rows, cols] ∧ rows < 0 ∧ x = .grid elem rows cols #[] := by
  unfold ArrayObject.allocate at hx
  split at hx
  · split at hx
    · cases hx
      simp only [ArrayObject.extents] at hrows
      omega
    · cases hx
  · rename_i rows cols
    split at hx
    · cases hx
      exact ⟨rows, cols, rfl, hrows, rfl⟩
    · split at hx
      · cases hx
        simp only [ArrayObject.extents] at hrows
        omega
      · cases hx
  · cases hx

theorem capacity_allocate (hx : ArrayObject.allocate elem extents = .ok x) :
    x.capacity = declaredCapacity extents := by
  cases ArrayObject.hasShape_allocate hx with
  | @line _ length items hitems =>
    simp only [ArrayObject.capacity, ArrayObject.extents, declaredCapacity]
    omega
  | @grid _ rows cols cells hcells _ => rfl

theorem DeclarationEnd.of_checkCapacity (hx : ArrayObject.allocate elem extents = .ok x)
    (hf : x.checkCapacity label elements.length = .error f) :
    DeclarationEnd label elem extents elements (.error (.fault f)) := by
  unfold ArrayObject.checkCapacity at hf
  split at hf
  · next hmany =>
    rcases bind_error hf with hcapacity | ⟨_, -, hf⟩
    · cases Value.integerText_error hcapacity
      exact .tooLongToWrite (le_natAbs_of_integerText hcapacity)
        (.inr (.inr (capacity_allocate hx)))
    · rcases bind_error hf with hcount | ⟨_, -, hf⟩
      · cases Value.integerText_error hcount
        exact .tooLongToWrite (le_natAbs_of_integerText hcount) (.inr (.inl rfl))
      · cases hf
        rw [capacity_allocate hx] at hmany ⊢
        exact .sizeExceeded hmany
  · cases hf

theorem DeclarationEnd.of_record (label : Label) (elem : Tag) (extents : List Int)
    (elements : List Node) (m : Machine) :
    DeclarationEnd label elem extents elements (Action.on (do
      record 2 fun _ =>
        return .declareArray label.shown elem.name (bracketed (← extents.mapM integerText))
      return none) m : Except Stop (Option Value) × Machine).1 := by
  obtain ⟨r, traced, hrecord, hdone⟩ := on_recordArray label elem extents m
  rw [hrecord]
  rcases hdone with rfl | ⟨rfl, n, hn, hlong⟩
  · exact .done
  · exact .tooLongToWrite hlong (.inl hn)

/-- Without rows no literal is stored; the first one is the end of the declaration. -/
theorem on_arrayDecl_negativeRows (hname : Name.ofLabel label = .ok name) (hrows : rows < 0)
    (hroom : ((rest.length + 1 : Nat) : Int) ≤ rows * cols) (hfuel : 3 ≤ fuel) :
    ((execute fuel (.arrayDecl label elem [rows, cols]
        (some (.literal text kind :: rest)))).on m).1 =
      match literalValue text kind with
      | .ok v =>
        if v.hasTag elem then .error (.fault .noElement)
        else .error (.fault (ArrayObject.mismatchFault
          (m.withArray name (.grid elem rows cols #[])).heap label 0 elem v))
      | .error f => .error (.fault f) := by
  obtain ⟨fuel, rfl⟩ : ∃ g, fuel = g + 1 := ⟨fuel - 1, by omega⟩
  have hx : ArrayObject.allocate elem [rows, cols] = .ok (.grid elem rows cols #[]) :=
    if_pos (by omega)
  have hcheck : (ArrayObject.grid elem rows cols #[]).checkCapacity label
      (Node.literal text kind :: rest).length = .ok () :=
    if_neg (Int.not_lt.2 hroom)
  rw [on_arrayDecl hname hx, hcheck, on_bind, on_lift_ok]
  simp only
  rw [on_bind, fillFrom_negativeRows hrows (by omega)]
  cases literalValue text kind with
  | error f => rfl
  | ok v => cases htag : v.hasTag elem <;> simp only [htag, Bool.false_eq_true, ↓reduceIte]

/-- With rows the lists have as many places as the capacity says. -/
theorem DeclarationEnd.of_rows (hx : ArrayObject.allocate elem extents = .ok x)
    (hrows : 0 ≤ x.extents.1)
    (hliterals : ∀ e ∈ elements, ∃ text kind, e = Node.literal text kind)
    (hroom : (elements.length : Int) ≤ x.capacity) (hfuel : elements.length < fuel) :
    DeclarationEnd label elem extents elements (Action.on (do
      fillFrom fuel label m.heap.size 0 elements
      record 2 fun _ =>
        return .declareArray label.shown elem.name (bracketed (← extents.mapM integerText))
      return none) (m.withArray name x) : Except Stop (Option Value) × Machine).1 := by
  have hshape := ArrayObject.hasShape_allocate hx
  have helem := hshape.elem_eq
  have hnone : (([] : List Node).length + elements.length : Int) ≤ x.capacity := by
    simpa using hroom
  have hlength : ([] : List Value).length = ([] : List Node).length := rfl
  obtain ⟨r, stored, hfill, hr⟩ := fillFrom_literals (m := m) hshape hrows hliterals
    (List.forall_mem_nil _) hlength hnone hfuel
  rw [ArrayObject.filled_nil hx] at hfill
  rw [on_bind, show (0 : Nat) = ([] : List Value).length from rfl, hfill]
  rcases hr with rfl | ⟨f, rfl, hf⟩
  · exact .of_record label elem extents elements _
  · rw [helem] at hf
    exact .filling hf

/-- Under a name the array is filled if there is room for the elements, and if it has rows. -/
theorem DeclarationEnd.of_allocate (hname : Name.ofLabel label = .ok name)
    (hx : ArrayObject.allocate elem extents = .ok x)
    (hliterals : ∀ e ∈ elements, ∃ text kind, e = Node.literal text kind)
    (hfuel : elements.length < fuel) :
    DeclarationEnd label elem extents elements
      ((execute (fuel + 1) (.arrayDecl label elem extents (some elements))).on m).1 := by
  cases hcheck : x.checkCapacity label elements.length with
  | error f =>
    rw [on_arrayDecl hname hx, hcheck, on_bind, on_lift_error]
    exact .of_checkCapacity hx hcheck
  | ok _ =>
    have hroom := ArrayObject.checkCapacity_ok hcheck
    by_cases hrows : 0 ≤ x.extents.1
    · rw [on_arrayDecl hname hx, hcheck, on_bind, on_lift_ok]
      exact .of_rows hx hrows hliterals hroom hfuel
    · obtain ⟨rows, cols, rfl, hneg, rfl⟩ := allocate_negativeRows hx (Int.not_le.1 hrows)
      -- no element is stored here, so it depends on there being a first one
      cases elements with
      | nil =>
        rw [on_arrayDecl hname hx, hcheck, on_bind, on_lift_ok]
        simp only [fillFrom_nil, pure_bind]
        exact .of_record label elem [rows, cols] [] _
      | cons e rest =>
        obtain ⟨text, kind, rfl⟩ := hliterals e List.mem_cons_self
        have hproduct : ((rest.length + 1 : Nat) : Int) ≤ rows * cols := hroom
        rw [List.length_cons] at hfuel
        rw [on_arrayDecl_negativeRows hname hneg hproduct (by omega)]
        cases hvalue : literalValue text kind with
        | error f => exact .filling (literalFault_of_error (List.forall_mem_nil _) hvalue)
        | ok v =>
          cases htag : v.hasTag elem with
          | false =>
            simp only [htag, Bool.false_eq_true, ↓reduceIte]
            exact .filling (literalFault_of_otherType (List.forall_mem_nil _) hvalue htag _)
          | true =>
            simp only [htag, ↓reduceIte]
            have hcount : 0 < rows * cols := by omega
            have hcols : cols < 0 := (neg_iff_neg_of_mul_pos hcount).1 hneg
            exact .noElement ⟨rows, cols, rfl, hneg, hcols, List.length_pos_of_mem
              List.mem_cons_self, hproduct⟩

/-- What is no name leaves the array without one. -/
theorem on_arrayDecl_notName (hname : Name.ofLabel label = .error f)
    (hx : ArrayObject.allocate elem extents = .ok x) (fuel : Nat) (elements : List Node)
    (m : Machine) :
    ((execute (fuel + 1) (.arrayDecl label elem extents (some elements))).on m).1
      = .error (.fault f) := by
  rw [execute_arrayDecl, allocateArray, hx]
  simp only [allocate, Action.bind, on_bind, on_lift_ok, on_get, on_set, on_pure, hname,
    on_lift_error]

/-- A declaration with one or two extents, of any sign, and any number of literals ends: its array is
there, or an error of the language says that there are more literals than room or that one is of
another type, or a literal has too many digits for a number, or the host has no list of this length
or no text of this number, or the array is given what is no name. Besides, an element may have no
place, but only if there are two negative extents; then the first literal has none, if it is of the
type. No extents let the filling divide by a number of rows that is zero, or go beyond the end of a
row. -/
theorem capacity_guards_fill (hextents : extents.length = 1 ∨ extents.length = 2)
    (hliterals : ∀ e ∈ elements, ∃ text kind, e = Node.literal text kind)
    (hfuel : elements.length + 2 ≤ fuel) (label : Label) (elem : Tag) (m : Machine) :
    DeclarationEnd label elem extents elements
      ((execute fuel (.arrayDecl label elem extents (some elements))).on m).1 ∧
    ∀ name text kind rest v, Name.ofLabel label = .ok name →
      elements = .literal text kind :: rest → Overcommitted extents elements.length →
      literalValue text kind = .ok v → v.hasTag elem →
      ((execute fuel (.arrayDecl label elem extents (some elements))).on m).1
        = .error (.fault .noElement) := by
  constructor
  · obtain ⟨g, rfl⟩ : ∃ g, fuel = g + 1 := ⟨fuel - 1, by omega⟩
    cases hx : ArrayObject.allocate elem extents with
    | error f =>
      obtain ⟨rfl, hextent⟩ := ArrayObject.allocate_error hextents hx
      have hon : (execute (g + 1) (.arrayDecl label elem extents (some elements))).on m
          = (.error (.fault .extentOutOfRange), m) := by
        rw [execute_arrayDecl, allocateArray, hx]
        rfl
      rw [hon]
      exact .extentOutOfRange hextent
    | ok x =>
      cases hname : Name.ofLabel label with
      | error f =>
        rw [on_arrayDecl_notName hname hx]
        exact .notName hname
      | ok name => exact .of_allocate hname hx hliterals (by omega)
  · rintro name text kind rest v hname rfl ⟨rows, cols, rfl, hneg, -, -, hroom⟩ hvalue htag
    rw [List.length_cons] at hfuel
    rw [on_arrayDecl_negativeRows hname hneg hroom (by omega), hvalue]
    simp only [htag, ↓reduceIte]

/-- A seven for grids of different extents, of which one has a row to put it in. -/
theorem capacity_guards_fill_signs :
    ((execute 3 (.arrayDecl "a" .int [-2, -3] (some [.literal "7" "int"]))).on {}).1
      = .error (.fault .noElement) ∧
    DeclarationEnd "a" .int [2, 3] [.literal "7" "int"]
      ((execute 3 (.arrayDecl "a" .int [2, 3] (some [.literal "7" "int"]))).on {}).1 := by
  have hname : Name.ofLabel "a" = .ok (Name.ofWord "a") := rfl
  have hliterals : ∀ e ∈ [Node.literal "7" "int"], ∃ text kind, e = Node.literal text kind :=
    fun e he => ⟨"7", "int", List.mem_singleton.1 he⟩
  have hover : Overcommitted [-2, -3] 1 :=
    ⟨-2, -3, rfl, by decide, by decide, by decide, by decide⟩
  have hfuel : [Node.literal "7" "int"].length + 2 ≤ 3 := le_refl 3
  have htwo : ∀ rows cols : Int, [rows, cols].length = 1 ∨ [rows, cols].length = 2 :=
    fun _ _ => .inr rfl
  obtain ⟨-, hfirst⟩ := capacity_guards_fill (htwo (-2) (-3)) hliterals hfuel "a" .int {}
  obtain ⟨hends, -⟩ := capacity_guards_fill (htwo 2 3) hliterals hfuel "a" .int {}
  exact ⟨hfirst (Name.ofWord "a") "7" "int" [] (.int 7) hname rfl hover rfl rfl, hends⟩

/-- For a grid of two negative extents the comparison lets an element through, and then there is no
row for it. A single negative extent does not let it through. -/
theorem negative_grid_missing_row :
    (ArrayObject.allocate .int [-2, -3]).map ArrayObject.capacity = .ok 6 ∧
    ((execute 3 (.arrayDecl "a" .int [-2, -3] (some [.literal "7" "int"]))).on {}).1
      = .error (.fault .noElement) ∧
    ((execute 3 (.arrayDecl "a" .int [-2] (some [.literal "7" "int"]))).on {}).1
      = .error (.fault (.sizeExceeded "a" 0 1)) := by
  have hname : Name.ofLabel "a" = .ok (Name.ofWord "a") := rfl
  have hx : ArrayObject.allocate .int [-2] = .ok (.line .int #[]) := rfl
  have hone : [Node.literal "7" "int"].length < Numeral.writeBound :=
    Numeral.lt_writeBound (by decide : 1 ≤ Numeral.maxDigits) (by decide)
  have hmany := on_arrayDecl_tooMany (m := {}) hname hx (by decide) (by decide) hone 2
  exact ⟨rfl, rfl, congrArg Prod.fst hmany⟩

end MiniAlgol
