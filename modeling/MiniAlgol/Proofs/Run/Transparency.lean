import MiniAlgol.Proofs.Run.Balance
import MiniAlgol.Proofs.Run.Faults

/-!
# Traces do not matter

A program runs the same at every level of the trace, and a lower level records the lines of a
higher one that it asks for (`runProgram_transparent`). Two things have to be set apart. A run that
lists an integer which is too long to be written ends there, and a run that does not list it goes
on. And the parameters of a routine are listed when it is declared, which fails if they are no
words; so the routines that are declared within the program, and within the routines that the
machine holds at the start, have words for parameters.

The first run of the simulation is the one at the higher level. Every action but `record` ignores
the trace, so that what holds of one run (`Invariant`) holds of both at once; `record` either adds
a line that is in both traces or in the longer one only, or ends the first run.
-/

namespace MiniAlgol

open MiniAlgol.Action Simulation

/-! ## Words for parameters -/

/-- The routines that are declared within the node have words for parameters. -/
def Node.Wordy (n : Node) : Prop :=
  ∀ kind name params body, n.Contains (.routineDecl kind name params body) →
    ∃ words : List String, params = words.map .str

/-- So have those that are declared within the routine. -/
def Routine.Wordy (r : Routine) : Prop :=
  ∀ s ∈ r.body, s.Wordy

def Value.Wordy : Value → Prop
  | .routine _ r => r.Wordy
  | _ => True

/-- The routines that the machine holds, under a name or in an array. -/
structure Machine.Wordy (m : Machine) : Prop where
  scope : ∀ {key v}, m.scope.get? key = some v → v.Wordy
  heap : ∀ {a : Nat} {x v}, m.heap[a]? = some x → v ∈ x.elements → v.Wordy

theorem Node.Wordy.part {n s : Node} (hn : n.Wordy) (hs : s ∈ n.parts) : s.Wordy :=
  fun kind name params body hcontains =>
    hn kind name params body (Relation.ReflTransGen.head hs hcontains)

theorem Node.Wordy.of_parts {n : Node}
    (hself : ∀ kind name params body, n = .routineDecl kind name params body →
      ∃ words : List String, params = words.map .str)
    (hparts : ∀ s ∈ n.parts, s.Wordy) : n.Wordy := by
  intro kind name params body hcontains
  rcases Relation.ReflTransGen.cases_head hcontains with hn | ⟨s, hs, hcontains⟩
  · exact hself kind name params body hn
  · exact hparts s hs kind name params body hcontains

/-- The invariant that a run comes to such routines only. -/
def wordiness : Invariant where
  expression _ := True
  statement := Node.Wordy
  routine := Routine.Wordy
  address _ _ := True
  heap h := ∀ {a : Nat} {x v}, h[a]? = some x → v ∈ x.elements → v.Wordy
  fault _ _ := True
  address_grows _ _ := trivial

variable {h : Heap} {v : Value}

theorem wordiness_value : wordiness.value h v ↔ v.Wordy := by
  cases v <;> simp [Invariant.value, Value.Wordy, wordiness]

theorem wordiness_kept : wordiness.Kept where
  expression_parts _ _ _ := trivial
  statement_expressions _ _ _ := trivial
  statement_parts hn _ hs := hn.part (Node.mem_parts_of_mem_statements hs)
  routine_body hr := hr
  declared hn s hs := hn.part hs
  element hh _ hx hv := wordiness_value.2 (hh hx hv)
  push := by
    intro h name elem extents init x hh _ hx
    refine ⟨fun {a y v} hy hv => ?_, trivial⟩
    exact Heap.elements_push (P := fun _ _ v => v.Wordy) hh hx (fun _ _ => trivial) hy hv
  put := by
    intro h a x x' i j v hh _ hx hv _ hput b y u hy hu
    exact Heap.elements_put (P := fun _ _ v => v.Wordy) hh hx (wordiness_value.1 hv) hput hy hu

theorem wordiness_allows : wordiness.Allows where
  language _ := trivial
  tooLong _ := trivial
  endless _ _ _ := trivial
  notExpression _ _ := trivial
  notStatement _ _ := trivial
  literal _ _ := trivial
  label _ _ _ := trivial
  params _ _ := trivial
  words _ _ := trivial
  noIndex _ := trivial
  noIndexToStore _ := trivial
  get _ _ _ _ _ := trivial
  put _ _ _ _ _ := trivial
  fill _ _ _ _ _ := trivial
  allocate _ _ := trivial

theorem wordiness_holds {m : Machine} (hm : m.Wordy) : wordiness.Holds m :=
  Invariant.holds_iff.2 ⟨hm.heap, fun _ _ hv => wordiness_value.2 (hm.scope hv)⟩

/-! ## Machines that differ in their traces -/

/-- The machine with another trace. -/
def Machine.withTrace (level : Int) (traced : Option (List TraceLine)) (tracing : Bool)
    (m : Machine) : Machine :=
  { m with level, traced, tracing }

@[simp] theorem heap_withTrace (level : Int) (traced : Option (List TraceLine)) (tracing : Bool)
    (m : Machine) : (m.withTrace level traced tracing).heap = m.heap := rfl

/-- The lines that a level asks for. -/
def linesUpTo (level : Int) (lines : List TraceLine) : List TraceLine :=
  lines.filter fun line => line.event.level ≤ level

/-- The runs at two levels so far, where the first one has recorded the lines. -/
structure Parallel (low high : Int) (before before' : Option (List TraceLine)) (m n : Machine)
    (lines : List TraceLine) (tracing : Bool) : Prop where
  first : m = m.withTrace high (before.map (lines ++ ·)) true
  second : n = m.withTrace low (before'.map (linesUpTo low lines ++ ·)) tracing
  tracing : 0 < low → tracing = true

/-- Simulation of a run at the level `high` by one at the level `low`. -/
abbrev leveled (I : Invariant) (low high : Int) (before before' : Option (List TraceLine)) :
    Simulation :=
  { I.simulation with
    machine := fun h m n => I.simulation.machine h m m ∧
      ∃ lines tracing, Parallel low high before before' m n lines tracing
    exempt := fun s => s = .tooLong }

section Leveled

variable {I : Invariant} {low high : Int} {before before' : Option (List TraceLine)} {w : Heap}
  {α : Type}

/-- The action neither looks at the trace nor touches it. -/
def Untraced (x : Action α) : Prop :=
  ∀ level traced tracing, Ignores (Machine.withTrace level traced tracing) x

/-- What a run keeps by actions that ignore the trace, both runs keep. -/
theorem Untraced.agrees {x : Action α} {P : Heap → α → α → Prop} (hx : Untraced x)
    (hkeep : I.simulation.Agrees w x x P) : (leveled I low high before before').Agrees w x x P := by
  rintro w' m n hw ⟨hm, lines, tracing, hfirst, rfl, htracing⟩
  have hends := hkeep w' m m hw hm
  -- the first machine keeps its own trace
  have hself := hx high (before.map (lines ++ ·)) true m
  rw [← hfirst] at hself
  rw [hx low _ tracing m]
  generalize x.on m = r at hself hends ⊢
  cases hends with
  | exempt hs => exact hs.elim
  | ok hw' hm' hpost =>
    exact .ok hw' ⟨hm', lines, tracing, congrArg Prod.snd hself, rfl, htracing⟩ hpost
  | error hw' hm' hs =>
    exact .error hw' ⟨hm', lines, tracing, congrArg Prod.snd hself, rfl, htracing⟩ hs

theorem Parallel.note {m n : Machine} {lines : List TraceLine} {tracing : Bool} {e : Event}
    (hp : Parallel low high before before' m n lines tracing) (he : 0 < e.level) :
    Parallel low high before before' (m.note e) (if e.level ≤ low then n.note e else n)
      (⟨m.depth, e⟩ :: lines) tracing := by
  obtain ⟨hfirst, rfl, htracing⟩ := hp
  have hnote : m.note e
      = m.withTrace high (before.map ((⟨m.depth, e⟩ :: lines) ++ ·)) true := by
    rw [hfirst]
    simp [Machine.note, Machine.withTrace, Machine.depth, Function.comp_def]
  refine ⟨by rw [hnote]; rfl, ?_, htracing⟩
  split
  · next hle =>
    -- a line of both traces
    have htrue := htracing (by omega)
    subst htrue
    rw [hnote]
    simp [Machine.note, Machine.withTrace, Machine.depth, Function.comp_def, linesUpTo, hle]
  · next hle =>
    simp [Machine.withTrace, hnote, linesUpTo, hle]

/-- A record adds a line to both traces or to the first one, or ends the first run. -/
theorem agrees_record_leveled {level : Int} {event : Heap → Except Fault Event} (hlt : low < high)
    (hpos : 0 < level) (hlevel : ∀ h e, event h = .ok e → e.level = level)
    (herror : ∀ h f, event h = .error f → f = .numeral .tooLongToWrite) :
    (leveled I low high before before').Agrees w (record level event) (record level event) any := by
  rintro w' m n hw ⟨hm, lines, tracing, hp⟩
  have hfirst : m.level = high := congrArg Machine.level hp.first
  have hsecond : n.level = low := congrArg Machine.level hp.second
  have hheap : n.heap = m.heap := by rw [hp.second]; rfl
  rw [on_record, on_record, hfirst, hsecond, hheap]
  by_cases hhigh : level ≤ high
  · rw [if_pos hhigh]
    cases he : event m.heap with
    | error f =>
      rw [herror _ f he]
      exact .exempt rfl
    | ok e =>
      obtain ⟨traced, hnote⟩ := exists_note m e
      have hm' : I.simulation.machine w' (m.note e) (m.note e) := by
        rw [hnote]
        exact ⟨rfl, hm.2.1, hm.2.2.heap, hm.2.2.scope⟩
      obtain rfl := hlevel _ e he
      have hp' := hp.note hpos
      by_cases hlow : e.level ≤ low
      · rw [if_pos hlow] at hp' ⊢
        exact .ok (Heap.Grows.refl _) ⟨hm', _, _, hp'⟩ trivial
      · rw [if_neg hlow] at hp' ⊢
        exact .ok (Heap.Grows.refl _) ⟨hm', _, _, hp'⟩ trivial
  · rw [if_neg hhigh, if_neg (by omega)]
    exact .ok (Heap.Grows.refl _) ⟨hm, lines, tracing, hp⟩ trivial

theorem leveled_stop {s t : Stop} (hs : (leveled I low high before before').stop w s t) :
    t = s := by
  cases s <;> cases t
  · rw [hs.1]
  · exact hs.elim
  · exact hs.elim
  · rfl

/-! ### The actions that ignore the trace -/

theorem untraced_look (F : Heap → Except Fault α) : Untraced (do lift (F (← get).heap)) :=
  fun level traced tracing =>
    ignores_look (g := Machine.withTrace level traced tracing) (fun _ => rfl) F

theorem untraced_newId : Untraced newId :=
  fun _ _ _ _ => rfl

theorem untraced_allocateArray (elem : Tag) (extents : List Int) :
    Untraced (allocateArray elem extents) :=
  fun _ _ _ => ignores_bind (ignores_lift _) fun _ _ => rfl

theorem untraced_checkRoom (name : Label) (address : Nat) (count : Int) :
    Untraced (checkRoom name address count) := by
  intro level traced tracing m
  simp only [checkRoom, on_bind, on_get, heap_withTrace]
  cases Heap.find m.heap name (.array address) with
  | error f => rfl
  | ok a => exact ignores_lift _ m

theorem untraced_changeHeap (f : Heap → Except Fault Heap) : Untraced (changeHeap f) := by
  intro level traced tracing m
  simp only [changeHeap, on_bind, on_get, heap_withTrace]
  cases f m.heap <;> rfl

/-- A simulation of a run by itself gives one of the runs at two levels, if the routines that are
declared have words for parameters. -/
theorem leveled_primitive (hlt : low < high) (Q : I.simulation.Primitive)
    (hwords : ∀ {kind name params body}, I.statement (.routineDecl kind name params body) →
      ∃ words : List String, params = words.map .str) :
    (leveled I low high before before').Primitive where
  expression_parts := Q.expression_parts
  statement_expressions := Q.statement_expressions
  statement_parts := Q.statement_parts
  routine_body := Q.routine_body
  declared := Q.declared
  scalar := Q.scalar
  builtin := Q.builtin
  callable := Q.callable
  hasTag := Q.hasTag
  bool := Q.bool
  language := Q.language
  notBoolean := Q.notBoolean
  notExpression := Q.notExpression
  notStatement := Q.notStatement
  literal := Q.literal
  label := Q.label
  params := Q.params
  scope_values := Q.scope_values
  scope_set := Q.scope_set
  scope_start := Q.scope_start
  scope := by
    rintro w m n ⟨hm, lines, tracing, -, rfl, -⟩
    have hscope := Q.scope hm
    exact hscope
  withScope := by
    rintro w m n s _ ⟨hm, lines, tracing, hfirst, rfl, htracing⟩ ⟨rfl, hs⟩
    refine ⟨Q.withScope hm ⟨rfl, hs⟩, lines, tracing, ?_, rfl, htracing⟩
    rw [hfirst]
    rfl
  openCall := by
    rintro w m n name ⟨hm, lines, tracing, hfirst, rfl, htracing⟩
    refine ⟨Q.openCall name hm, lines, tracing, ?_, rfl, htracing⟩
    rw [hfirst]
    rfl
  closeCall := by
    rintro w m n ⟨hm, lines, tracing, hfirst, rfl, htracing⟩
    refine ⟨Q.closeCall hm, lines, tracing, ?_, rfl, htracing⟩
    rw [hfirst]
    rfl
  print := by
    rintro w m n line ⟨hm, lines, tracing, hfirst, rfl, htracing⟩
    refine ⟨Q.print line hm, lines, tracing, ?_, rfl, htracing⟩
    rw [hfirst]
    rfl
  plainText := by
    rintro w v _ ⟨rfl, hv⟩
    exact (untraced_look fun heap => v.plainText heap).agrees (Q.plainText ⟨rfl, hv⟩)
  typeName := by
    rintro w v _ ⟨rfl, hv⟩
    exact (untraced_look fun heap => v.typeName heap).agrees (Q.typeName ⟨rfl, hv⟩)
  newId := untraced_newId.agrees Q.newId
  operate := by
    rintro w cls op left right a _ b _ hn ⟨rfl, ha⟩ ⟨rfl, hb⟩
    exact (untraced_look fun heap => a.apply heap op b).agrees (Q.operate hn ⟨rfl, ha⟩ ⟨rfl, hb⟩)
  readElement := by
    rintro w name indices t _ is is' hn ⟨rfl, ht⟩ his hlen
    obtain ⟨rfl, -⟩ := Invariant.values_iff.1 his
    exact (untraced_look fun heap => Heap.read heap name t is).agrees
      (Q.readElement hn ⟨rfl, ht⟩ his hlen)
  allocateArray hn := (untraced_allocateArray _ _).agrees (Q.allocateArray hn)
  checkRoom := by
    rintro w name a _ count ⟨ha, haddress⟩
    cases ha
    exact (untraced_checkRoom name a count).agrees (Q.checkRoom ⟨rfl, haddress⟩)
  fill := by
    rintro w name a _ count v _ index ⟨ha, haddress⟩ hroom hindex ⟨rfl, hv⟩
    cases ha
    exact (untraced_changeHeap _).agrees (Q.fill ⟨rfl, haddress⟩ hroom hindex ⟨rfl, hv⟩)
  write := by
    rintro w name indices value t _ is is' v _ hn ⟨rfl, ht⟩ his hlen ⟨rfl, hv⟩
    obtain ⟨rfl, -⟩ := Invariant.values_iff.1 his
    exact (untraced_changeHeap _).agrees (Q.write hn ⟨rfl, ht⟩ his hlen ⟨rfl, hv⟩)
  record := by
    intro w level event event' ht
    obtain rfl := ht.eq fun _ _ hv => hv.1
    refine agrees_record_leveled hlt ht.pos (fun _ _ he => ht.level_eq he) fun _ f he => ?_
    rcases ht.error he with hf | ⟨kind, name, params, body, hs, hf⟩
    · exact hf
    · obtain ⟨words, rfl⟩ := hwords hs
      rw [wordsFrom_words] at hf
      cases hf

end Leveled

/-! ## Runs at two levels -/

theorem leveled_lawful {low high : Int} {before before' : Option (List TraceLine)}
    (hlt : low < high) : (leveled wordiness low high before before').Lawful :=
  (leveled_primitive hlt (wordiness_kept.primitive wordiness_allows)
    fun hs => hs _ _ _ _ .refl).lawful

/-- The machine at another level of the trace. -/
def Machine.atLevel (m : Machine) (level : Int) : Machine :=
  { m with level }

theorem parallel_startRun {low high : Int} (hlow : 0 ≤ low) (hlt : low < high) (m : Machine) :
    Parallel low high (startRun.on (m.atLevel high)).2.traced
      (startRun.on (m.atLevel low)).2.traced (startRun.on (m.atLevel high)).2
      (startRun.on (m.atLevel low)).2 [] (startRun.on (m.atLevel low)).2.tracing := by
  have hstart : ∀ level, (startRun.on (m.atLevel level)).2 =
      { m with
        level
        traced := if 0 < level then some (if m.runs = 0 then [] else m.traced.getD []) else m.traced
        tracing := if 0 < level then true else m.tracing
        runs := m.runs + 1 } := by
    intro level
    by_cases hlevel : 0 < level <;> simp [startRun, Machine.atLevel, hlevel]
  have hhigh : 0 < high := by omega
  rw [hstart, hstart]
  refine ⟨?_, ?_, fun hpos => ?_⟩
  · simp [Machine.withTrace, hhigh]
  · simp [Machine.withTrace, linesUpTo]
  · simp [hpos]

theorem wordy_of_programBody {program : Node} {body : List Node} (hprogram : program.Wordy)
    (hbody : programBody program = .ok body) : ∀ s ∈ body, s.Wordy :=
  fun _ hs => hprogram.part (Node.mem_parts_of_programBody hbody hs)

theorem runBody_leveled {low high : Int} {before before' : Option (List TraceLine)}
    {program : Node} (fuel : Nat) (hlt : low < high) (hprogram : program.Wordy) (w : Heap) :
    (leveled wordiness low high before before').Agrees w (runBody fuel program)
      (runBody fuel program) any := by
  refine Agrees.bind (agrees_lift (P := fun _ b b' => b = b' ∧ ∀ s ∈ b, s.Wordy)
    (fun _ _ _ hbody => ⟨rfl, wordy_of_programBody hprogram hbody⟩) fun _ _ _ => ⟨rfl, trivial⟩) ?_
  rintro w₁ body _ hw₁ ⟨rfl, hbody⟩
  exact ((leveled_lawful hlt).agrees (.inl rfl)).executeAll hbody

/-- Runs of a program on a machine, the first at the level `high` and the second at the level
`low`, that end alike. The lines of a trace are listed from the last one back. -/
structure AlikeAtLevels (m : Machine) (low high : Int)
    (first second : Except Stop Unit × Machine) : Prop where
  result : second.1 = first.1
  printed : second.2.printed = first.2.printed
  scope : second.2.scope = first.2.scope
  heap : second.2.heap = first.2.heap
  traced : ∃ lines,
    first.2.traced = (startRun.on (m.atLevel high)).2.traced.map (lines ++ ·) ∧
    second.2.traced = (startRun.on (m.atLevel low)).2.traced.map
      (lines.filter (fun line => line.event.level ≤ low) ++ ·)

/-- A program ends alike at two levels of the trace, unless an integer was too long to be listed at
the higher one: with the same result, printed lines, names and arrays. Of the lines that the higher
level records the lower one records those that are of its own level or below. -/
theorem runProgram_transparent {low high : Int} {program : Node} {m : Machine} (fuel : Nat)
    (hlow : 0 ≤ low) (hlt : low < high) (hprogram : program.Wordy) (hm : m.Wordy)
    (hend : ((runProgram fuel program).on (m.atLevel high)).1 ≠ .error .tooLong) :
    AlikeAtLevels m low high ((runProgram fuel program).on (m.atLevel high))
      ((runProgram fuel program).on (m.atLevel low)) := by
  have hatLevel : wordiness.Holds (m.atLevel high) :=
    ⟨(wordiness_holds hm).heap, (wordiness_holds hm).scope⟩
  have hends := runBody_leveled fuel hlt hprogram _ _ _ _ (Heap.Grows.refl _)
    ⟨⟨rfl, rfl, hatLevel.startRun⟩, [], _, parallel_startRun hlow hlt m⟩
  rw [on_runProgram_runBody] at hend ⊢
  rw [on_runProgram_runBody]
  generalize (runBody fuel program).on (startRun.on (m.atLevel high)).2 = r at hends hend ⊢
  generalize (runBody fuel program).on (startRun.on (m.atLevel low)).2 = r' at hends ⊢
  cases hends with
  | exempt hs =>
    subst hs
    exact absurd rfl hend
  | ok _ hm' _ =>
    obtain ⟨-, lines, tracing, hfirst, hsecond, -⟩ := hm'
    subst hsecond
    exact ⟨rfl, rfl, rfl, rfl, lines, congrArg Machine.traced hfirst, rfl⟩
  | error _ hm' hs =>
    obtain ⟨-, lines, tracing, hfirst, hsecond, -⟩ := hm'
    subst hsecond
    exact ⟨by rw [leveled_stop hs], rfl, rfl, rfl, lines, congrArg Machine.traced hfirst, rfl⟩

/-- A program that declares a routine and calls it. -/
def declareAndCall : Node :=
  .program [.routineDecl .function "f" [.str "x"] [.assign "y" (.ident "x")],
    .exprStmt (.call "f" [.literal "\"a\"" "str"])]

theorem runProgram_transparent_declareAndCall :
    ((runProgram 8 declareAndCall).on (Machine.atLevel {} 3)).1 = .ok () ∧
      AlikeAtLevels {} 1 3 ((runProgram 8 declareAndCall).on (Machine.atLevel {} 3))
        ((runProgram 8 declareAndCall).on (Machine.atLevel {} 1)) := by
  have hok : ((runProgram 8 declareAndCall).on (Machine.atLevel {} 3)).1 = .ok () := by rfl
  have hassign : (Node.assign "y" (.ident "x")).Wordy := .of_parts nofun nofun
  have hcall : (Node.exprStmt (.call "f" [.literal "\"a\"" "str"])).Wordy := .of_parts nofun nofun
  have hdeclare : (Node.routineDecl .function "f" [.str "x"] [.assign "y" (.ident "x")]).Wordy := by
    refine .of_parts ?_ (List.forall_mem_singleton.2 hassign)
    rintro _ _ _ _ ⟨⟩
    exact ⟨["x"], rfl⟩
  have hwordy : declareAndCall.Wordy :=
    .of_parts nofun (List.forall_mem_cons.2 ⟨hdeclare, List.forall_mem_singleton.2 hcall⟩)
  have hm : Machine.Wordy {} := by
    refine ⟨fun {key v} hv => ?_, fun hx => by cases hx⟩
    have hrel := Scope.related_builtins (R := fun v _ => v.Wordy) (fun _ => trivial) key
    rw [show ({} : Machine).scope = Scope.builtins from rfl] at hv
    rw [hv] at hrel
    cases hrel with
    | some hv => exact hv
  refine ⟨hok, runProgram_transparent 8 (by decide) (by decide) hwordy hm ?_⟩
  rw [hok]
  exact nofun

/-- A program that calls a routine. -/
def callOnly : Node :=
  .program [.exprStmt (.call "f" [])]

/-- A machine with a routine that declares another one, whose parameter is no word. -/
def holdsDeclarer : Machine where
  scope := Scope.builtins.set (Name.ofWord "f")
    (.routine 1 ⟨"f", [], [.routineDecl .function "g" [.int 1] []], "function"⟩)

/-- What the machine holds at the start does matter: the call fails at a level that lists the
parameters, and succeeds without a trace. -/
theorem holdsDeclarer_not_transparent :
    callOnly.Wordy ∧
      ((runProgram 6 callOnly).on (holdsDeclarer.atLevel 2)).1
        = .error (.fault (.notWord 0 "int")) ∧
      ((runProgram 6 callOnly).on (holdsDeclarer.atLevel 0)).1 = .ok () := by
  have hcall : (Node.exprStmt (.call "f" [])).Wordy := .of_parts nofun nofun
  exact ⟨.of_parts nofun (List.forall_mem_singleton.2 hcall), rfl, rfl⟩

end MiniAlgol
