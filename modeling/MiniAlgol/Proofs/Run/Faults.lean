import MiniAlgol.Proofs.Run.Invariant
import MiniAlgol.Proofs.Source.Completeness
import MiniAlgol.Proofs.Source.Literals
import MiniAlgol.Proofs.Source.Soundness

/-!
# The faults of parsed programs

Trees can be made that no source text gives, and running them has faults of its own. A program that
was parsed has none of these (`runProgram_foreseen`): its run succeeds, or ends with an error of the
language or at the limit on the digits of integers. What is left are two limits of machines: the
text of an array that holds itself has no end, and an array may be declared with an extent that no
machine has room for.

The invariant is that only statements of the program run, that routines are declared by them, and
that every array in the heap has its elements in place and holds arrays of the heap.
-/

namespace MiniAlgol

open Invariant

/-! ## Shapes and runs -/

namespace Source

variable {isName : String → Prop} {n e : Node} {name : Label}

theorem IsExpression.evaluated (hn : IsExpression isName n) : n.isExpression := by
  cases hn with
  | literal _ hx =>
    obtain ⟨-, text, kind, rfl⟩ := exists_of_literal? hx
    rfl
  | _ => rfl

theorem IsExpression.parts (hn : IsExpression isName n) (he : e ∈ n.expressions) :
    IsExpression isName e := by
  cases hn with
  | literal _ hx =>
    obtain ⟨-, text, kind, rfl⟩ := exists_of_literal? hx
    cases he
  | ident => cases he
  | binary _ _ hl hr =>
    rcases List.mem_pair.1 he with rfl | rfl
    · exact hl
    · exact hr
  | arrayAccess _ _ _ hindices => exact hindices e he
  | call _ hargs => exact hargs e he

theorem IsExpression.label (hn : IsExpression isName n) (hname : n.label? = some name) :
    ∃ s, name = .str s := by
  cases hn with
  | literal _ hx =>
    obtain ⟨-, text, kind, rfl⟩ := exists_of_literal? hx
    cases hname
  | binary => cases hname
  | _ =>
    cases hname
    exact ⟨_, rfl⟩

theorem IsStatement.executed (hn : IsStatement isName n) : n.isStatement := by
  cases hn <;> rfl

theorem IsStatement.expressions (hn : IsStatement isName n) (he : e ∈ n.expressions) :
    IsExpression isName e := by
  cases hn with
  | varDecl | routineDecl | block => cases he
  | varInit _ hinit =>
    simp only [Node.expressions, hinit.isMissing, Bool.false_eq_true, if_false,
      List.mem_singleton] at he
    exact he ▸ hinit
  | arrayDecl _ _ _ _ hinit => exact hinit e he
  | indexAssign _ _ _ hindices hvalue =>
    rcases List.mem_cons.1 he with rfl | he
    · exact hvalue
    · exact hindices e he
  | assign _ h | ifThen h | ifElse h | whileStmt h | returnStmt h | exprStmt h =>
    obtain rfl := List.mem_singleton.1 he
    exact h

theorem IsStatement.parts (hn : IsStatement isName n) (he : e ∈ n.statements) :
    IsStatement isName e := by
  cases hn with
  | ifThen _ hbody =>
    obtain rfl := List.mem_singleton.1 he
    exact .block hbody
  | ifElse _ hbody helse =>
    simp only [Node.statements, helse.isMissing, Bool.false_eq_true, if_false] at he
    rcases List.mem_pair.1 he with rfl | rfl
    · exact .block hbody
    · exact helse
  | whileStmt _ hbody =>
    obtain rfl := List.mem_singleton.1 he
    exact .block hbody
  | block hbody => exact hbody e he
  | _ => cases he

theorem IsStatement.label (hn : IsStatement isName n) (hname : n.label? = some name) :
    ∃ s, name = .str s := by
  cases hn with
  | ifThen | ifElse | whileStmt | returnStmt | exprStmt | block => cases hname
  | _ =>
    cases hname
    exact ⟨_, rfl⟩

end Source

/-! ## What is within a program -/

namespace Node

/-- The statements next within a node, with those of the routine that it declares. -/
def parts : Node → List Node
  | program body => body
  | routineDecl _ _ _ body => body
  | n => n.statements

/-- A node, or what is within it at any depth. -/
def Contains (n s : Node) : Prop :=
  Relation.ReflTransGen (fun n s => s ∈ n.parts) n s

theorem Contains.part {program n s : Node} (hn : program.Contains n) (hs : s ∈ n.parts) :
    program.Contains s :=
  hn.tail hs

theorem mem_parts_of_mem_statements {n s : Node} (hs : s ∈ n.statements) : s ∈ n.parts := by
  cases n with
  | program | routineDecl => cases hs
  | _ => exact hs

theorem mem_parts_of_programBody {program s : Node} {body : List Node}
    (hbody : programBody program = .ok body) (hs : s ∈ body) : s ∈ program.parts := by
  cases program with
  | program | routineDecl =>
    cases hbody
    exact hs
  | _ => cases hbody

/-- An array is declared within the program with an extent beyond machine words. -/
def DeclaresTooLarge (program : Node) : Prop :=
  ∃ name elem extents init, program.Contains (.arrayDecl name elem extents init) ∧
    ∃ n ∈ extents, isLength n = false

end Node

/-! ## The invariant -/

/-- The limit on the digits of integers that are read or written. -/
def Fault.isDigitLimit : Fault → Bool
  | .numeral .tooLongToWrite => true
  | .literal (.numeral (.tooManyDigits _)) => true
  | _ => false

/-- What a fault of a parsed program can be. -/
inductive Fault.Foreseen (program : Node) (h : Heap) : Fault → Prop where
  | language {f : Fault} (hkind : f.kind?.isSome) : Foreseen program h f
  | digits {f : Fault} (hf : f.isDigitLimit) : Foreseen program h f
  /-- An array holds itself, in an element or deeper. -/
  | endless {a : Nat} (hcycle : Relation.TransGen h.Holds a a) :
      Foreseen program h .endlessText
  | tooLarge (hextent : program.DeclaresTooLarge) : Foreseen program h .extentOutOfRange

/-- A statement of the program. -/
def IsPart (isName : String → Prop) (program n : Node) : Prop :=
  Source.IsStatement isName n ∧ program.Contains n

/-- A routine that a statement of the program declares. -/
def IsDeclared (isName : String → Prop) (program : Node) (r : Routine) : Prop :=
  (∃ words : List String, r.params = words.map .str) ∧ ∀ s ∈ r.body, IsPart isName program s

/-- The arrays have their elements in place, and hold arrays of the heap and routines of the
program. -/
structure Heap.Sound (isName : String → Prop) (program : Node) (h : Heap) : Prop where
  shaped : ∀ {a : Nat} {x}, h[a]? = some x → x.Shaped ∧ 0 ≤ x.extents.1
  array : ∀ {a b : Nat} {x}, h[a]? = some x → Value.array b ∈ x.elements → b < h.size
  routine : ∀ {a : Nat} {x id r}, h[a]? = some x → Value.routine id r ∈ x.elements →
    IsDeclared isName program r

/-- The invariant of the runs of a program. -/
def soundness (isName : String → Prop) (program : Node) : Invariant where
  expression := Source.IsExpression isName
  statement := IsPart isName program
  routine := IsDeclared isName program
  address h a := a < h.size
  heap := Heap.Sound isName program
  fault := Fault.Foreseen program
  address_grows hg ha := ha.trans_le hg.size_le

variable {isName : String → Prop} {program : Node} {h : Heap}

theorem Heap.Sound.element {a : Nat} {x : ArrayObject} {v : Value}
    (hh : Heap.Sound isName program h) (hx : h[a]? = some x) (hv : v ∈ x.elements) :
    (soundness isName program).value h v := by
  cases v with
  | array b => exact hh.array hx hv
  | routine id r => exact hh.routine hx hv
  | _ => trivial

/-- A heap is sound when its arrays are in shape and hold what the run may hold. -/
theorem Heap.Sound.of_values
    (hshaped : ∀ {a : Nat} {x}, h[a]? = some x → x.Shaped ∧ 0 ≤ x.extents.1)
    (hvalues : ∀ {a : Nat} {x v}, h[a]? = some x → v ∈ x.elements →
      (soundness isName program).value h v) : Heap.Sound isName program h where
  shaped := hshaped
  array hx hb := hvalues hx hb
  routine hx hr := hvalues hx hr

theorem Heap.Sound.push {elem : Tag} {extents : List Int} {x : ArrayObject}
    (hh : Heap.Sound isName program h) (hextents : ∀ n ∈ extents, 0 ≤ n)
    (hx : ArrayObject.allocate elem extents = .ok x) : Heap.Sound isName program (h.push x) := by
  -- an array of the new heap is the new one or was there before
  refine .of_values (fun {a y} hy => ?_) fun {a y v} hy hv => ?_
  · rw [Array.getElem?_push] at hy
    split at hy
    · cases hy
      exact ⟨ArrayObject.shaped_allocate hx, ArrayObject.rows_allocate hextents hx⟩
    · exact hh.shaped hy
  · rw [Array.getElem?_push] at hy
    split at hy
    · -- the new array holds nothing
      cases hy
      rw [ArrayObject.eq_undefined_of_mem_allocate hx hv]
      trivial
    · exact value_grows (Heap.Grows.push h x) (hh.element hy hv)

theorem Heap.Sound.put {a : Nat} {x x' : ArrayObject} {i j : Int} {v : Value}
    (hh : Heap.Sound isName program h) (hx : h[a]? = some x)
    (hv : (soundness isName program).value h v) (hput : x.put i j v = .ok x') :
    Heap.Sound isName program (h.setIfInBounds a x') := by
  have hgrow := Heap.Grows.set hx hput
  refine .of_values (fun {b y} hy => ?_) fun {b y u} hy hu => ?_
  · rw [Heap.getElem?_set hx] at hy
    split at hy
    · cases hy
      obtain ⟨hshaped, hrows⟩ := hh.shaped hx
      rw [(ArrayObject.shape_put hput).2]
      exact ⟨hshaped.put hput, hrows⟩
    · exact hh.shaped hy
  · rw [Heap.getElem?_set hx] at hy
    split at hy
    · cases hy
      rcases ArrayObject.mem_of_mem_put hput hu with rfl | hu
      · exact value_grows hgrow hv
      · exact value_grows hgrow (hh.element hx hu)
    · exact value_grows hgrow (hh.element hy hu)

theorem extents_of_isPart {name : Label} {elem : Tag} {extents : List Int}
    {init : Option (List Node)} (hs : IsPart isName program (.arrayDecl name elem extents init)) :
    (extents.length = 1 ∨ extents.length = 2) ∧ ∀ n ∈ extents, 0 ≤ n := by
  cases hs.1 with
  | arrayDecl _ hone htwo hextents _ =>
    have hpos := List.length_pos_of_ne_nil hone
    exact ⟨by omega, fun n hn => (hextents n hn).1⟩

theorem soundness_kept (isName : String → Prop) (program : Node) :
    (soundness isName program).Kept where
  expression_parts hn e he := hn.parts he
  statement_expressions hn e he := hn.1.expressions he
  statement_parts hn s hs :=
    ⟨hn.1.parts hs, hn.2.part (Node.mem_parts_of_mem_statements hs)⟩
  routine_body hr := hr.2
  declared := by
    rintro kind name params body ⟨hshape, hwithin⟩
    cases hshape with
    | @routineDecl _ _ words _ _ _ hbody =>
      exact ⟨⟨words, rfl⟩, fun s hs => ⟨hbody s hs, hwithin.part hs⟩⟩
  element hh _ hx hv := hh.element hx hv
  push := by
    intro h name elem extents init x hh hs hx
    refine ⟨hh.push (extents_of_isPart hs).2 hx, ?_⟩
    show h.size < (h.push x).size
    rw [Array.size_push]
    exact Nat.lt_succ_self _
  put hh _ hx hv _ hput := hh.put hx hv hput

/-! ## The faults -/

theorem wordsFrom_words (words : List String) (index : Nat) :
    wordsFrom index (words.map .str) = .ok words := by
  induction words generalizing index with
  | nil => rfl
  | cons word words ih =>
    rw [List.map_cons, wordsFrom, ih]
    rfl

theorem soundness_allows (isName : String → Prop) (program : Node) :
    (soundness isName program).Allows where
  language hf := .language hf
  tooLong _ := .digits rfl
  endless := by
    intro h v hh hv htext
    -- every array that is held is in the heap, so a text without an end comes to one twice
    have hclosed : ∀ a b, h.Holds a b → b < h.size := by
      rintro a b ⟨x, hx, hb⟩
      exact hh.array hx hb
    obtain ⟨a, hcycle⟩ := Value.exists_cycle_of_plainText hclosed (by rintro a rfl; exact hv) htext
    exact .endless hcycle
  notExpression hn hkind := by
    rw [hn.evaluated] at hkind
    cases hkind
  notStatement hn hkind := by
    rw [hn.1.executed] at hkind
    cases hkind
  literal := by
    intro h text kind f hn hf
    cases hn with
    | literal ht hx =>
      obtain ⟨count, rfl⟩ := Source.literalValue_error ht hx hf
      exact .digits rfl
  label := by
    intro h n name f hn hname hf
    -- the labels of parsed trees are words
    obtain ⟨s, rfl⟩ := hn.elim (·.label hname) (·.1.label hname)
    cases hf
  params := by
    intro h r f hr hf
    obtain ⟨words, hwords⟩ := hr.1
    obtain ⟨l, hl, hfl⟩ := exists_of_mapM_error hf
    rw [hwords] at hl
    obtain ⟨word, -, rfl⟩ := List.mem_map.1 hl
    cases hfl
  words := by
    intro h kind name params body f hs hf
    cases hs.1 with
    | routineDecl =>
      rw [wordsFrom_words] at hf
      cases hf
  noIndex hn := by
    cases hn with
    | literal _ hx =>
      obtain ⟨-, text, kind, heq⟩ := Source.exists_of_literal? hx
      cases heq
    | arrayAccess _ hone => exact absurd rfl hone
  noIndexToStore hs := by
    cases hs.1 with
    | indexAssign _ hone => exact absurd rfl hone
  get := by
    intro h a x i j f hh _ hx hr hf
    obtain ⟨v, hv⟩ := (hh.shaped hx).1.exists_get hr
    rw [hv] at hf
    cases hf
  put := by
    intro h a x i j v f hh _ hx hr hf
    obtain ⟨x', hx'⟩ := (hh.shaped hx).1.exists_put hr v
    rw [hx'] at hf
    cases hf
  fill := by
    intro h a x name index v f hh _ hx hlt hf
    obtain ⟨hshaped, hrows⟩ := hh.shaped hx
    -- there is a row to fill, and a position within the extents has an element
    obtain ⟨i, j, hposition, hr⟩ :=
      ArrayObject.fillPosition_inRange hrows (Int.natCast_nonneg index) hlt
    obtain ⟨x', hx'⟩ := hshaped.exists_put hr v
    rcases ArrayObject.fill_error hf with (hf | rfl) | hf | ⟨i', j', hposition', hf⟩
    · exact .language hf
    · exact .digits rfl
    · rw [hposition] at hf
      cases hf
    · rw [hposition] at hposition'
      cases hposition'
      rw [hx'] at hf
      cases hf
  allocate := by
    intro h name elem extents init f hs hf
    obtain ⟨rfl, n, hn, hlarge⟩ := ArrayObject.allocate_error (extents_of_isPart hs).1 hf
    exact .tooLarge ⟨name, elem, extents, init, hs.2, n, hn, hlarge⟩

/-! ## Runs of parsed programs -/

theorem soundness_start {m : Machine} (hheap : m.heap = #[]) (hscope : m.scope = Scope.builtins) :
    (soundness isName program).Holds m := by
  refine ⟨?_, ?_⟩
  · rw [hheap]
    exact .of_values (fun hx => by cases hx) fun hx => by cases hx
  · rw [hscope]
    exact Scope.related_builtins fun b => ⟨rfl, trivial⟩

theorem runProgram_leaves (hprogram : Source.IsProgram isName program) (level : Int)
    (fuel : Nat) : (soundness isName program).Leaves #[] (fun _ _ => True)
      ((runProgram fuel program).on { level := level }) := by
  obtain @⟨body, hbody⟩ := hprogram
  have hparts : ∀ s ∈ body, IsPart isName (.program body) s := fun s hs =>
    ⟨hbody s hs, .single hs⟩
  obtain ⟨traced, tracing, runs, hstart⟩ := exists_on_startRun { level := level }
  have hholds : (soundness isName (.program body)).Holds { level, traced, tracing, runs } :=
    soundness_start rfl rfl
  have hleaves := (soundness_kept isName (.program body)).run
    (soundness_allows isName (.program body)) fuel hparts hholds
  rw [on_runProgram fuel rfl, hstart]
  generalize (executeAll fuel body).on _ = r at hleaves ⊢
  -- whether events are recorded is no part of the invariant
  cases hleaves with
  | ok hg hm _ => exact .ok hg ⟨hm.heap, hm.scope⟩ trivial
  | fault hg hm hf => exact .fault hg ⟨hm.heap, hm.scope⟩ hf
  | outOfFuel hg hm => exact .outOfFuel hg ⟨hm.heap, hm.scope⟩

/-- Running a program that was parsed, on a new machine at any level of the trace, succeeds, or does
not end within the fuel, or ends with a fault that is foreseen. -/
theorem runProgram_foreseen {source : String} {program : Node}
    (hparse : Source.parse source = .ok program) (level : Int) (fuel : Nat) :
    ((runProgram fuel program).on { level := level }).1 = .ok () ∨
      ((runProgram fuel program).on { level := level }).1 = .error .outOfFuel ∨
      ∃ f m, (runProgram fuel program).on { level := level } = (.error (.fault f), m) ∧
        f.Foreseen program m.heap := by
  have hleaves := runProgram_leaves (Source.isProgram_of_parse hparse) level fuel
  generalize (runProgram fuel program).on { level := level } = r at hleaves ⊢
  cases hleaves with
  | ok => exact .inl rfl
  | outOfFuel => exact .inr (.inl rfl)
  | fault _ _ hf => exact .inr (.inr ⟨_, _, rfl, hf⟩)

/-- The program `x ;` is parsed, and its run ends with an error: nothing gave `x` a value. -/
theorem runProgram_foreseen_undefined :
    ∃ source program, Source.parse source = .ok program ∧
      ((runProgram 3 program).on { level := 2 }).1
        = .error (.fault (.undefinedVariable (.str "x"))) ∧
      (((runProgram 3 program).on { level := 2 }).1 = .ok () ∨
        ((runProgram 3 program).on { level := 2 }).1 = .error .outOfFuel ∨
        ∃ f m, (runProgram 3 program).on { level := 2 } = (.error (.fault f), m) ∧
          f.Foreseen program m.heap) := by
  let x : Token := ⟨.ident, ['x']⟩
  have hphrase : Source.Phrase .whole [x] (.ident "x") :=
    .operand (.operand (.operand (.ident rfl)))
  have hderives : Source.Derives [x, Source.sign .semicolon] [.exprStmt (.ident "x")] :=
    Source.Derives.nil.concat (.exprStmt hphrase)
  have hx : x.Fits := ⟨'x', [], rfl, by decide, List.forall_mem_nil _⟩
  have hfits : ∀ t ∈ [x, Source.sign .semicolon], t.Fits ∧ t.Plain := by
    refine List.forall_mem_cons.2 ⟨⟨hx, fun _ => rfl⟩, List.forall_mem_singleton.2 ⟨?_, nofun⟩⟩
    rfl
  have hparse := hderives.parse_spaced (fun t ht => (hfits t ht).1) fun t ht => (hfits t ht).2
  exact ⟨_, _, hparse, rfl, runProgram_foreseen hparse 2 3⟩

end MiniAlgol
