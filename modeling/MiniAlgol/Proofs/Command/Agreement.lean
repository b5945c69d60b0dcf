import MiniAlgol.Proofs.Command.Files
import MiniAlgol.Proofs.Tree.Saving
import Mathlib

/-!
# Running a source file and running its saved tree

A source file can be run at once, or its tree can be saved and run from there, whether the file is
given by a relative path or by an absolute one. Both runs print the same, end alike and leave the
same trace (`run_saved_alike`), because the saved text is read as the tree that was parsed and
because saving it changes nothing that a run looks at.
-/

namespace MiniAlgol.Command

variable {file source : String} {w : Workspace} {path : Path} {program : Node}

/-! ## Arguments -/

/-- A text that stands for a file on the command line: it is not empty and not taken for an
option. -/
structure NamesFile (file : String) : Prop where
  nonempty : file ≠ ""
  operand : classify file = .ok (.operand file)

theorem NamesFile.ne_mark (hfile : NamesFile file) : file ≠ "--" := by
  rintro rfl
  cases hfile.operand

theorem NamesFile.classifyAll_eq (hfile : NamesFile file) :
    classifyAll [file] = .ok [.operand file] := by
  simp [classifyAll, hfile.ne_mark, hfile.operand]

theorem NamesFile.nonempty_eq (hfile : NamesFile file) :
    Task.nonempty (some file) = some file := by
  simp [Task.nonempty, hfile.nonempty]

theorem classifyAll_verbose (n : Nat) {rest : List String} {items : List Item}
    (hrest : classifyAll rest = .ok items) :
    classifyAll (List.replicate n "-v" ++ rest)
      = .ok (List.replicate n (.flag .verbose) ++ items) := by
  induction n with
  | zero => exact hrest
  | succ n ih =>
    rw [List.replicate_succ, List.cons_append, classifyAll, if_neg (by decide), ih]
    rfl

theorem consume_verbose (n : Nat) (items : List Item) (p : Progress) :
    consume p (List.replicate n (.flag .verbose) ++ items) = consume (p.addVerbosity n) items := by
  induction n generalizing p with
  | zero => rfl
  | succ n ih =>
    rw [List.replicate_succ, List.cons_append, consume, ih]
    simp only [Progress.addVerbosity, Nat.add_assoc, Nat.add_comm 1]

/-- Flags in front of other arguments are counted, and nothing else. -/
theorem ofArguments_verbose {n : Nat} {rest : List String} {items : List Item} {p : Progress}
    {task : Task} (hrest : classifyAll rest = .ok items)
    (hitems : consume { options := { verbosity := n } } items = .ok (.inl p))
    (hextras : p.extras = []) (htask : Task.ofOptions? p.options = some task) :
    Task.ofArguments (List.replicate n "-v" ++ rest) = .ok task := by
  have hstart : Progress.addVerbosity {} n = { options := { verbosity := n } } := by
    simp [Progress.addVerbosity]
  have hrequest : Request.ofArguments (List.replicate n "-v" ++ rest)
      = .ok (.options p.options) := by
    simp [Request.ofArguments, classifyAll_verbose n hrest, consume_verbose, hstart, hitems,
      hextras]
  rw [Task.ofArguments, hrequest]
  simp only [htask]

theorem ofArguments_source (n : Nat) (hfile : NamesFile file) :
    Task.ofArguments (List.replicate n "-v" ++ [file]) = .ok (.runSource (Path.ofText file) n) := by
  refine ofArguments_verbose hfile.classifyAll_eq rfl rfl ?_
  simp only [Task.ofOptions?, Progress.addOperand, Bool.false_eq_true, if_false, hfile.nonempty_eq]
  rfl

/-- An option and the file it is given. -/
theorem classifyAll_value {spelling : String} {flag : Flag} (hmark : spelling ≠ "--")
    (hflag : classify spelling = .ok (.flag flag)) (hfile : NamesFile file) :
    classifyAll [spelling, file] = .ok [.flag flag, .operand file] := by
  rw [classifyAll, if_neg hmark, hflag, hfile.classifyAll_eq]
  rfl

theorem ofArguments_tree (n : Nat) (hfile : NamesFile file) :
    Task.ofArguments (List.replicate n "-v" ++ ["--ast", file])
      = .ok (.runTree (Path.ofText file) n) := by
  refine ofArguments_verbose (p := { options := { verbosity := n, ast := some file } })
    (classifyAll_value (by decide) rfl hfile) ?_ rfl ?_
  · simp [consume, Progress.setValue, hfile.ne_mark]
  · simp only [Task.ofOptions?, hfile.nonempty_eq]
    rfl

theorem ofArguments_emit (n : Nat) (hfile : NamesFile file) :
    Task.ofArguments (List.replicate n "-v" ++ ["--emit-ast", file])
      = .ok (.emit (Path.ofText file)) := by
  refine ofArguments_verbose (p := { options := { verbosity := n, emitAst := some file } })
    (classifyAll_value (by decide) rfl hfile) ?_ rfl ?_
  · simp [consume, Progress.setValue, hfile.ne_mark]
  · simp only [Task.ofOptions?, hfile.nonempty_eq]

/-! ## Reports -/

theorem runReport_congr {blocked blocked' : Path → Bool} (level : Nat) (program : Node)
    (htrace : blocked tracePath = blocked' tracePath) :
    runReport blocked level program = runReport blocked' level program := by
  rw [runReport, runReport, htrace]

/-- A run writes its trace, if it has one, and no other file. -/
theorem exists_writes_runReport (blocked : Path → Bool) (level : Nat) (program : Node) :
    ∃ trace : Option String, (runReport blocked level program).writes
      = trace.toList.map fun text => (tracePath, text) := by
  rw [runReport]
  split
  · exact ⟨none, rfl⟩
  · generalize (runProgram ampleFuel program).on { level } = outcome
    obtain ⟨result, m⟩ := outcome
    refine ⟨m.trace, ?_⟩
    simp only
    -- the files are the same however the run ended
    split
    · cases m.trace <;> rfl
    · split <;> cases m.trace <;> rfl
    · cases m.trace <;> rfl

/-- The saved text of a parsed program runs as the program. -/
theorem runSaved_pretty (hparse : Source.parse source = .ok program) (blocked : Path → Bool)
    (level : Nat) :
    runSaved blocked level program.toJson.pretty = runReport blocked level program := by
  simp only [runSaved, Json.read_pretty (Node.plain_of_parse hparse), Node.ofJson_toJson]

theorem decode_encode_pretty (hparse : Source.parse source = .ok program) :
    Text.decode (Text.encode program.toJson.pretty) = some program.toJson.pretty := by
  refine Text.decode_encode ?_
  rw [Json.pretty, String.toList_ofList]
  exact (Node.plain_of_parse hparse).carriageReturn_notMem 0

/-! ## Runs of the command -/

namespace Workspace

/-- What becomes of a report: its files are written. -/
def carryOut (w : Workspace) (report : Report) : Report × Workspace :=
  (report, report.writes.foldl (fun w (path, text) => w.write path (Text.encode text)) w)

theorem run_eq {arguments : List String} {task : Task}
    (htask : Task.ofArguments arguments = .ok task) :
    w.run arguments = w.carryOut (task.perform w.blocked (w.find task.path)) := by
  rw [run, htask]
  rfl

/-- A run leaves the same trace in two workspaces that had the same one. -/
theorem find_tracePath_carryOut {w' : Workspace} {report : Report}
    (hfind : w.find tracePath = w'.find tracePath)
    (hwrites : ∃ trace : Option String,
      report.writes = trace.toList.map fun text => (tracePath, text)) :
    (w.carryOut report).2.find tracePath = (w'.carryOut report).2.find tracePath := by
  obtain ⟨trace, hwrites⟩ := hwrites
  rw [carryOut, carryOut, hwrites]
  cases trace with
  | none => exact hfind
  | some text =>
    have hself : ∀ u : Workspace, (u.write tracePath (Text.encode text)).find tracePath
        = .file (Text.encode text) := fun u => find_write_self resolve_tracePath
    exact (hself w).trans (hself w').symm

/-- There is a file under the path, and it holds the text. -/
def HoldsText (w : Workspace) (path : Path) (text : String) : Prop :=
  ∃ content, w.find path = .file content ∧ Text.decode content = some text

/-- The workspace with the tree of a program saved beside its source file. -/
def withTree (w : Workspace) (path : Path) (program : Node) : Workspace :=
  w.write (emittedPath path) (Text.encode program.toJson.pretty)

theorem holdsText_withTree (htext : w.HoldsText path source)
    (hparse : Source.parse source = .ok program) :
    (w.withTree path program).HoldsText (emittedPath path) program.toJson.pretty := by
  obtain ⟨content, hfound, -⟩ := htext
  obtain ⟨place, hresolve, -⟩ := exists_resolve_emittedPath hfound
  exact ⟨_, find_write_self hresolve, decode_encode_pretty hparse⟩

/-- Saving a tree leaves an older trace as it is. -/
theorem find_tracePath_withTree (htext : w.HoldsText path source) (program : Node) :
    (w.withTree path program).find tracePath = w.find tracePath := by
  obtain ⟨content, hfound, -⟩ := htext
  obtain ⟨place, hresolve, hne⟩ := exists_resolve_emittedPath hfound
  refine find_write_other ?_
  rw [resolve_tracePath, hresolve]
  exact fun heq => hne (Option.some.inj heq).symm

theorem run_source {arguments : List String} {level : Nat}
    (htask : Task.ofArguments arguments = .ok (.runSource path level))
    (htext : w.HoldsText path source) (hparse : Source.parse source = .ok program) :
    w.run arguments = w.carryOut (runReport w.blocked level program) := by
  obtain ⟨content, hfound, hdecode⟩ := htext
  rw [run_eq htask]
  simp only [Task.path, hfound, Task.perform, hdecode, withProgram, hparse]

theorem run_tree {arguments : List String} {level : Nat}
    (htask : Task.ofArguments arguments = .ok (.runTree path level))
    (htext : w.HoldsText path program.toJson.pretty)
    (hparse : Source.parse source = .ok program) :
    w.run arguments = w.carryOut (runReport w.blocked level program) := by
  obtain ⟨content, hfound, hdecode⟩ := htext
  rw [run_eq htask]
  simp only [Task.path, hfound, Task.perform, hdecode, runSaved_pretty hparse]

theorem run_emit {arguments : List String} (htask : Task.ofArguments arguments = .ok (.emit path))
    (htext : w.HoldsText path source) (hparse : Source.parse source = .ok program)
    (hfree : w.blocked (emittedPath path) = false) :
    (w.run arguments).1.ending = .exit 0 ∧ (w.run arguments).2 = w.withTree path program := by
  obtain ⟨content, hfound, hdecode⟩ := htext
  rw [run_eq htask]
  simp [Task.path, hfound, Task.perform, hdecode, withProgram, hparse, emitReport, hfree, carryOut,
    withTree]

/-- A text that cannot be parsed is reported, and no file is written. -/
theorem run_emit_refused {arguments : List String} {e : Source.SyntaxError}
    (htask : Task.ofArguments arguments = .ok (.emit path)) (htext : w.HoldsText path source)
    (hparse : Source.parse source = .error e) :
    (w.run arguments).1.ending = .exit 1 ∧ (w.run arguments).2 = w := by
  obtain ⟨content, hfound, hdecode⟩ := htext
  rw [run_eq htask]
  simp [Task.path, hfound, Task.perform, hdecode, withProgram, hparse, carryOut, Report.refused]

/-- Runs do not depend on whether the tree of their source file was saved. -/
theorem runReport_withTree (htext : w.HoldsText path source) (level : Nat) (program tree : Node) :
    runReport (w.withTree path tree).blocked level program
      = runReport w.blocked level program :=
  runReport_congr level program (by rw [blocked, blocked, find_tracePath_withTree htext])

/-- However the three tasks are spelled as arguments, the run of a source file and the run of its
saved tree come to one report and leave one trace. -/
theorem run_tree_alike {emit direct reload : List String} {level : Nat}
    (hemit : Task.ofArguments emit = .ok (.emit path))
    (hdirect : Task.ofArguments direct = .ok (.runSource path level))
    (hreload : Task.ofArguments reload = .ok (.runTree (emittedPath path) level))
    (htext : w.HoldsText path source) (hparse : Source.parse source = .ok program)
    (hfree : w.blocked (emittedPath path) = false) :
    (w.run direct).1 = ((w.run emit).2.run reload).1 ∧
      (w.run direct).2.find tracePath = ((w.run emit).2.run reload).2.find tracePath := by
  rw [(run_emit hemit htext hparse hfree).2, run_source hdirect htext hparse,
    run_tree hreload (holdsText_withTree htext hparse) hparse, runReport_withTree htext]
  exact ⟨rfl, find_tracePath_carryOut (find_tracePath_withTree htext program).symm
    (exists_writes_runReport w.blocked level program)⟩

end Workspace

/-- Running a source file, with any number of flags, and running the tree that was saved from it
print the same, end alike and leave the same trace. A source file that cannot be parsed is reported,
and no file is written. -/
theorem run_saved_alike (w : Workspace) {file source : String} (n m : Nat)
    (hfile : NamesFile file) (htext : w.HoldsText (Path.ofText file) source) :
    (∀ program saved, Source.parse source = .ok program →
      w.blocked (emittedPath (Path.ofText file)) = false → NamesFile saved →
      Path.ofText saved = emittedPath (Path.ofText file) →
      let emitted := w.run (List.replicate m "-v" ++ ["--emit-ast", file])
      let direct := w.run (List.replicate n "-v" ++ [file])
      let reloaded := emitted.2.run (List.replicate n "-v" ++ ["--ast", saved])
      emitted.1.ending = .exit 0 ∧ direct.1 = reloaded.1 ∧
        direct.2.find tracePath = reloaded.2.find tracePath) ∧
    (∀ e, Source.parse source = .error e →
      let emitted := w.run (List.replicate m "-v" ++ ["--emit-ast", file])
      emitted.1.ending = .exit 1 ∧ emitted.2 = w) := by
  have hemit := ofArguments_emit m hfile
  constructor
  · intro program saved hparse hfree hsaved hpath
    have hreload := ofArguments_tree n hsaved
    rw [hpath] at hreload
    exact ⟨(Workspace.run_emit hemit htext hparse hfree).1,
      Workspace.run_tree_alike hemit (ofArguments_source n hfile) hreload htext hparse hfree⟩
  · intro e hparse
    exact Workspace.run_emit_refused hemit htext hparse

/-- A program that prints and then fails, run with two flags and by its absolute path from another
directory, and a text that is no program, beside the directory. -/
theorem run_saved_alike_writeThenFail :
    (let w : Workspace := ⟨["home"], [(["tmp", "p.alg"], Text.encode "write(\"\\\");y;")]⟩
      let emitted := w.run ["--emit-ast", "/tmp/p.alg"]
      let direct := w.run ["-v", "-v", "/tmp/p.alg"]
      let reloaded := emitted.2.run ["-v", "-v", "--ast", "/tmp/p.alg.ast.json"]
      emitted.1.ending = .exit 0 ∧ direct.1 = reloaded.1 ∧
        direct.2.find tracePath = reloaded.2.find tracePath) ∧
    (let w : Workspace := ⟨["home"], [(["p.alg"], Text.encode "y")]⟩
      let emitted := w.run ["--emit-ast", "../p.alg"]
      emitted.1.ending = .exit 1 ∧ emitted.2 = w) := by
  constructor
  · have hfile : NamesFile "/tmp/p.alg" := ⟨by decide, rfl⟩
    have hparse : Source.parse "write(\"\\\");y;" = .ok (.program
        [.exprStmt (.call "write" [.literal "\"\\\"" "str"]), .exprStmt (.ident "y")]) := by
      cbv
    exact (run_saved_alike _ 2 0 hfile ⟨_, rfl, Text.decode_encode (by decide)⟩).1 _
      "/tmp/p.alg.ast.json" hparse (by decide) ⟨by decide, rfl⟩ (by decide)
  · have hfile : NamesFile "../p.alg" := ⟨by decide, rfl⟩
    obtain ⟨e, hparse⟩ : ∃ e, Source.parse "y" = .error e := ⟨_, by cbv⟩
    exact (run_saved_alike _ 0 0 hfile ⟨_, rfl, Text.decode_encode (by decide)⟩).2 e hparse

end MiniAlgol.Command
