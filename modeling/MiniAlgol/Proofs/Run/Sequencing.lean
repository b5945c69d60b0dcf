import MiniAlgol.Proofs.Run.Induction
import MiniAlgol.Proofs.Run.Splicing
import Mathlib

/-!
# One run after another

Only where a run starts does it matter how many runs there were before: a first run starts the
trace anew, and later ones add to it. What a program does from then on is the same in every run
(`sameInRuns`). So running the statements `xs` and then, in a run of their own, the statements `ys`
does what one run of `xs ++ ys` does (`runProgram_append`).

Together with the splicing of blocks this says that only the order of the statements matters, and
not how they are put into runs and blocks (`runs_in_sequence_and_flat`).
-/

namespace MiniAlgol

open MiniAlgol.Action

variable {α β : Type} {m : Machine}

/-! ## What does not depend on the run -/

/-- The action does the same in every run. The count of runs does not matter to it, and neither
does it whether events are recorded where the level asks for none; both stay, and so do the level
and the trace itself if there is one. -/
structure SameInRuns (x : Action α) : Prop where
  again : ∀ {m : Machine} (runs : Nat) (tracing : Bool), (0 < m.level → tracing = m.tracing) →
    x.on { m with runs, tracing } = ((x.on m).1, { (x.on m).2 with runs, tracing })
  level_eq : ∀ m, (x.on m).2.level = m.level
  traced : ∀ m, m.traced.isSome → (x.on m).2.traced.isSome

namespace SameInRuns

theorem runs_eq {x : Action α} (hx : SameInRuns x) (m : Machine) : (x.on m).2.runs = m.runs :=
  congrArg (fun e => e.2.runs) (hx.again m.runs m.tracing fun _ => rfl)

theorem tracing_eq {x : Action α} (hx : SameInRuns x) (m : Machine) :
    (x.on m).2.tracing = m.tracing :=
  congrArg (fun e => e.2.tracing) (hx.again m.runs m.tracing fun _ => rfl)

theorem pure (a : α) : SameInRuns (Pure.pure a : Action α) where
  again _ _ _ := rfl
  level_eq _ := rfl
  traced _ h := h

theorem throw (s : Stop) : SameInRuns (MonadExcept.throw s : Action α) where
  again _ _ _ := rfl
  level_eq _ := rfl
  traced _ h := h

theorem lift (r : Except Fault α) : SameInRuns (Action.lift r) := by
  cases r with
  | ok a => exact pure a
  | error f => exact throw (.fault f)

theorem bind {x : Action α} {f : α → Action β} (hx : SameInRuns x) (hf : ∀ a, SameInRuns (f a)) :
    SameInRuns (x >>= f) where
  again := by
    intro m runs tracing htracing
    have htracing' : 0 < (x.on m).2.level → tracing = (x.on m).2.tracing := by
      rw [hx.level_eq, hx.tracing_eq]
      exact htracing
    rw [on_bind, on_bind, hx.again runs tracing htracing]
    generalize x.on m = e at htracing' ⊢
    rcases e with ⟨r, m'⟩
    cases r with
    | error s => rfl
    | ok a => exact (hf a).again runs tracing htracing'
  level_eq := by
    intro m
    have hlevel := hx.level_eq m
    rw [on_bind]
    generalize x.on m = e at hlevel ⊢
    rcases e with ⟨r, m'⟩
    cases r with
    | error s => exact hlevel
    | ok a => exact ((hf a).level_eq m').trans hlevel
  traced := by
    intro m h
    have htraced := hx.traced m h
    rw [on_bind]
    generalize x.on m = e at htraced ⊢
    rcases e with ⟨r, m'⟩
    cases r with
    | error s => exact htraced
    | ok a => exact (hf a).traced m' htraced

/-- An action that changes names, arrays, open calls or printed lines. -/
theorem modify {f : Machine → Machine}
    (hf : ∀ m runs tracing, f { m with runs, tracing } = { f m with runs, tracing })
    (hlevel : ∀ m, (f m).level = m.level) (htraced : ∀ m, (f m).traced = m.traced) :
    SameInRuns (MonadState.modifyGet fun m => ((), f m) : Action Unit) where
  again {m} runs tracing _ := by
    show (Except.ok (), f { m with runs, tracing }) = (Except.ok (), { f m with runs, tracing })
    rw [hf]
  level_eq m := hlevel m
  traced m h := by
    show (f m).traced.isSome
    rw [htraced]
    exact h

theorem look (F : Scope → Heap → Except Fault α) :
    SameInRuns (do
      let m ← get
      Action.lift (F m.scope m.heap)) where
  again {m} runs tracing h := (lift (F m.scope m.heap)).again runs tracing h
  level_eq m := (lift (F m.scope m.heap)).level_eq m
  traced m := (lift (F m.scope m.heap)).traced m

theorem record {level : Int} (hlevel : 0 < level) (event : Heap → Except Fault Event) :
    SameInRuns (Action.record level event) where
  again := by
    intro m runs tracing htracing
    rw [on_record, on_record]
    by_cases hle : level ≤ m.level
    · -- the level asks for the event, so both machines record it or neither does
      have htracing := htracing (by omega)
      subst htracing
      simp only [if_pos hle]
      cases event m.heap with
      | error f => rfl
      | ok e =>
        simp only [Machine.note]
        split <;> rfl
    · simp only [if_neg hle]
  level_eq := by
    intro m
    rw [on_record]
    split
    · cases event m.heap with
      | error f => rfl
      | ok e =>
        obtain ⟨traced, hnote⟩ := exists_note m e
        simp only [hnote]
    · rfl
  traced := by
    intro m h
    rw [on_record]
    split
    · cases event m.heap with
      | error f => exact h
      | ok e =>
        simp only [Machine.note]
        split
        · rwa [Option.isSome_map]
        · exact h
    · exact h

theorem inCall {x : Action α} (start : Scope) (hx : SameInRuns x) :
    SameInRuns (Action.inCall start x) where
  again := by
    intro m runs tracing htracing
    have hbody := hx.again (m := { m with scope := start }) runs tracing htracing
    rw [on_inCall, on_inCall]
    simp only at hbody ⊢
    rw [hbody]
    rcases x.on { m with scope := start } with ⟨r, m'⟩
    cases r <;> rfl
  level_eq := by
    intro m
    have hlevel := hx.level_eq { m with scope := start }
    rw [on_inCall]
    generalize x.on { m with scope := start } = e at hlevel ⊢
    rcases e with ⟨r, m'⟩
    cases r <;> exact hlevel
  traced := by
    intro m h
    have htraced := hx.traced { m with scope := start } h
    rw [on_inCall]
    generalize x.on { m with scope := start } = e at htraced ⊢
    rcases e with ⟨r, m'⟩
    cases r <;> exact htraced

theorem activate {r : Routine} {args : List Value} {x : Action Unit} (hx : SameInRuns x) :
    SameInRuns (MiniAlgol.activate r args x) :=
  bind (lift _) fun start =>
    bind (modify (fun _ _ _ => rfl) (fun _ => rfl) fun _ => rfl) fun _ =>
      bind (record (by decide) _) fun _ => bind (inCall start hx) fun _ =>
        bind (record (by decide) _) fun _ => pure _

theorem changeHeap (f : Heap → Except Fault Heap) : SameInRuns (Action.changeHeap f) := by
  have hsteps : Action.changeHeap f = (do
      let heap ← (do
        let m ← get
        Action.lift (f m.heap))
      MonadState.modifyGet fun m => ((), { m with heap })) := by
    simp only [Action.changeHeap, bind_assoc]
    rfl
  rw [hsteps]
  exact bind (look fun _ heap => f heap) fun _ =>
    modify (fun _ _ _ => rfl) (fun _ => rfl) fun _ => rfl

theorem inherited : Inherited SameInRuns where
  pure := pure
  fail f := throw (.fault f)
  outOfFuel := throw .outOfFuel
  bind := bind
  look := look
  bindName _ _ := bind (lift _) fun _ => modify (fun _ _ _ => rfl) (fun _ => rfl) fun _ => rfl
  print _ := modify (fun _ _ _ => rfl) (fun _ => rfl) fun _ => rfl
  newId := ⟨fun _ _ _ => rfl, fun _ => rfl, fun _ h => h⟩
  allocate _ := ⟨fun _ _ _ => rfl, fun _ => rfl, fun _ h => h⟩
  changeHeap := changeHeap
  record hlevel _ := record hlevel _
  activate := activate

end SameInRuns

theorem sameInRuns (fuel : Nat) (body : List Node) : SameInRuns (executeAll fuel body) :=
  (SameInRuns.inherited.runs fuel).executeAll body

/-! ## Two runs and one -/

theorem level_startRun (m : Machine) : (startRun.on m).2.level = m.level := by
  obtain ⟨traced, tracing, runs, hstart⟩ := exists_on_startRun m
  rw [hstart]

theorem tracing_startRun (hlevel : 0 < m.level) : (startRun.on m).2.tracing = true := by
  simp only [startRun, on_modify, if_pos hlevel]

theorem traced_startRun (hlevel : 0 < m.level) : (startRun.on m).2.traced.isSome := by
  simp only [startRun, on_modify, if_pos hlevel, Option.isSome_some]

/-- A later run goes on with the trace that the runs before it left. -/
theorem startRun_again (hruns : m.runs ≠ 0) (htraced : 0 < m.level → m.traced.isSome) :
    (startRun.on m).2 =
      { m with tracing := if 0 < m.level then true else m.tracing, runs := m.runs + 1 } := by
  by_cases hlevel : 0 < m.level
  · obtain ⟨lines, hlines⟩ := Option.isSome_iff_exists.1 (htraced hlevel)
    simp only [startRun, on_modify, if_pos hlevel, if_neg hruns, hlines, Option.getD_some]
  · simp only [startRun, on_modify, if_neg hlevel]

/-- Two programs in turn, the first of which succeeds, do what the program with the statements of
both does; only the runs are one more. -/
theorem runProgram_append {fuel : Nat} {xs : List Node} {m₁ : Machine} (ys : List Node)
    (h : (runProgram fuel (.program xs)).on m = (.ok (), m₁)) :
    (runProgram fuel (.program (xs ++ ys))).on m =
      (((runProgram fuel (.program ys)).on m₁).1,
        { ((runProgram fuel (.program ys)).on m₁).2 with runs := m₁.runs }) := by
  cases fuel with
  | zero => cases h
  | succ f =>
    have hfirst := sameInRuns (f + 1) xs
    have hsecond := sameInRuns (f + 1) ys
    have hlevel := (hfirst.level_eq (startRun.on m).2).trans (level_startRun m)
    have htracing := hfirst.tracing_eq (startRun.on m).2
    have htraced := hfirst.traced (startRun.on m).2
    have hruns := hfirst.runs_eq (startRun.on m).2
    have hbody : ∀ body : List Node, programBody (.program body) = .ok body := fun _ => rfl
    rw [on_runProgram (f + 1) (hbody xs)] at h
    rw [on_runProgram (f + 1) (hbody (xs ++ ys)), on_runProgram (f + 1) (hbody ys),
      executeAll_append, on_bind]
    rcases hend : (executeAll (f + 1) xs).on (startRun.on m).2 with ⟨r, m'⟩
    rw [hend] at h hlevel htracing htraced hruns
    cases h
    simp only at hlevel htracing htraced hruns ⊢
    -- the second run starts from where the first one ended, in the same way but for the count
    have hagain : (startRun.on { m' with tracing := false }).2 =
        { m' with tracing := if 0 < m'.level then true else false, runs := m'.runs + 1 } := by
      refine startRun_again ?_ fun hpos => htraced (traced_startRun (hlevel ▸ hpos))
      rw [hruns]
      exact Nat.succ_ne_zero m.runs
    have hrecords : 0 < m'.level → (if 0 < m'.level then true else false) = m'.tracing := by
      intro hpos
      rw [if_pos hpos, htracing, tracing_startRun (hlevel ▸ hpos)]
    have hkept := hsecond.runs_eq m'
    rw [hagain, hsecond.again (m'.runs + 1) _ hrecords]
    simp only [← hkept]

/-- A run is counted however it ends. -/
theorem runs_runProgram (fuel : Nat) (body : List Node) (m : Machine) :
    ((runProgram fuel (.program body)).on m).2.runs = m.runs + 1 := by
  have hbody : programBody (.program body) = .ok body := rfl
  rw [on_runProgram fuel hbody]
  exact (sameInRuns fuel body).runs_eq (startRun.on m).2

/-- After a run that succeeded, what one run of all the statements comes to is what a run of the
others comes to, with one run less. -/
theorem runsTo_append_iff {xs ys : List Node} {m₁ m₂ : Machine} {r : Except Fault Unit}
    (h : RunsTo (.program xs) m (.ok ()) m₁) :
    RunsTo (.program (xs ++ ys)) m r m₂ ↔
      RunsTo (.program ys) m₁ r { m₂ with runs := m₂.runs + 1 } := by
  obtain ⟨f, h⟩ := h
  -- both runs of `xs` with the larger of the two fuels
  have hfirst : ∀ {g}, f ≤ g → (runProgram g (.program xs)).on m = (.ok (), m₁) := by
    intro g hfg
    rw [runProgram_of_le hfg (not_starves h), h]
    rfl
  constructor
  · rintro ⟨g, hg⟩
    have hall := runProgram_of_le (le_max_right f g) (not_starves hg)
    rw [hg, runProgram_append ys (hfirst (le_max_left f g))] at hall
    have hruns := runs_runProgram (max f g) ys m₁
    have hresult := congrArg Prod.fst hall
    have hmachine := congrArg Prod.snd hall
    refine ⟨max f g, Prod.ext hresult ?_⟩
    subst hmachine
    simp only [← hruns]
  · rintro ⟨g, hg⟩
    have hrest := runProgram_of_le (le_max_right f g) (not_starves hg)
    have hruns := runs_runProgram (max f g) ys m₁
    refine ⟨max f g, ?_⟩
    rw [runProgram_append ys (hfirst (le_max_left f g))]
    rw [hrest, hg] at hruns ⊢
    simp only [Nat.add_right_cancel_iff] at hruns
    simp only [← hruns]

/-! ## Runs in sequence and flat blocks -/

/-- How statements are put into runs and into blocks makes no difference. Where a run of `xs`
succeeds, a run of `xs ++ ys` comes to what a run of `ys` comes to after it, with one run less. A
program and the program without blocks in its lists of statements end alike, except that one leaves
spliced bodies in the routines that it declares; on a machine without other bodies, as a fresh one
is, that is exactly the end of the spliced program. -/
theorem runs_in_sequence_and_flat (m : Machine) :
    (∀ {xs ys m₁}, RunsTo (.program xs) m (.ok ()) m₁ → ∀ r m₂,
      (RunsTo (.program (xs ++ ys)) m r m₂ ↔
        RunsTo (.program ys) m₁ r { m₂ with runs := m₂.runs + 1 })) ∧
    (∀ program r m', EndsSpliced program.splice m r m' ↔ EndsSpliced program m r m') ∧
    (m.splice = m → ∀ program r m',
      (RunsTo program.splice m r m' ↔ EndsSpliced program m r m')) := by
  refine ⟨fun h _ _ => runsTo_append_iff h, fun _ _ _ => endsSpliced_splice_iff, ?_⟩
  intro hm program r m'
  rw [← runsTo_splice_iff, hm]

/-- Declares a routine that doubles its argument, with a block in a block around it and a block in
its body. -/
def declareDouble : List Node :=
  [.block [.block [.routineDecl .function "f" [.str "x"]
    [.block [.returnStmt (.binary .additive "+" (.ident "x") (.ident "x"))]]]]]

def writeDouble : List Node :=
  [.exprStmt (.call "write" [.call "f" [.literal "\"a\"" "str"]])]

theorem runs_in_sequence_and_flat_double :
    let start : Machine := { level := 1 }
    let between := ((runProgram 16 (.program declareDouble)).on start).2
    let after := ((runProgram 16 (.program (declareDouble ++ writeDouble))).on start).2
    RunsTo (.program declareDouble) start (.ok ()) between ∧ start.splice = start ∧
      after.printed = ["aa"] ∧
      RunsTo (.program writeDouble) between (.ok ()) { after with runs := after.runs + 1 } ∧
      RunsTo (Node.program (declareDouble ++ writeDouble)).splice start (.ok ()) after.splice := by
  have hfirst : ((runProgram 16 (.program declareDouble)).on { level := 1 }).1 = .ok () := by cbv
  have hboth : ((runProgram 16 (.program (declareDouble ++ writeDouble))).on { level := 1 }).1
      = .ok () := by cbv
  have hprinted : ((runProgram 16 (.program (declareDouble ++ writeDouble))).on
      { level := 1 }).2.printed = ["aa"] := by cbv
  obtain ⟨hsequence, -, hflat⟩ := runs_in_sequence_and_flat { level := 1 }
  have hstart := Machine.splice_fresh 1
  exact ⟨runsTo_of_ok hfirst, hstart, hprinted,
    (hsequence (runsTo_of_ok hfirst) _ _).1 (runsTo_of_ok hboth),
    (hflat hstart _ _ _).2 ⟨_, _, runsTo_of_ok hboth, rfl, rfl⟩⟩

end MiniAlgol
