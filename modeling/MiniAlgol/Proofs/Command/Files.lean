import MiniAlgol.Command.Workspace
import Mathlib.Data.List.Basic

/-!
# Files of a workspace

Writing a file makes it the file under its path and changes nothing elsewhere (`find_write_self`,
`find_write_other`): every place that a path leads to lies in a directory that is there already, so
no path leads anywhere else afterwards (`resolve_write`). This holds of relative paths and of absolute
ones, and wherever the parts that mean "up" lead. A text without carriage returns comes back from a
file as it was (`decode_encode`).
-/

namespace MiniAlgol.Text

theorem unifyNewlines_eq {cs : List Char} (hcs : '\r' ∉ cs) : unifyNewlines cs = cs := by
  induction cs with
  | nil => rfl
  | cons c cs ih =>
    rw [List.mem_cons, not_or] at hcs
    have hc : c ≠ '\r' := Ne.symm hcs.1
    simp [unifyNewlines, hc, ih hcs.2]

theorem decode_encode {s : String} (hs : '\r' ∉ s.toList) : decode (encode s) = some s := by
  have hutf : String.fromUTF8? s.toUTF8 = some s := by
    unfold String.fromUTF8?
    rw [String.toUTF8_eq_toByteArray, dif_pos s.isValidUTF8]
    rfl
  rw [decode, encode, hutf, Option.map_some, unifyNewlines_eq hs, String.ofList_toList]

end MiniAlgol.Text

namespace MiniAlgol.Command.Workspace

variable {w : Workspace} {here place q : List String} {path other : Path} {content : ByteArray}

/-! ## Directories -/

theorem hasDirectory_iff :
    w.hasDirectory q ↔
      q <+: w.directory ∨ ∃ name ∈ w.files.map Prod.fst, q <+: name ∧ q ≠ name := by
  simp [hasDirectory]

/-- What is around a directory is a directory. -/
theorem hasDirectory_of_isPrefix (hhere : w.hasDirectory here) (hq : q <+: here) :
    w.hasDirectory q := by
  rw [hasDirectory_iff] at hhere ⊢
  rcases hhere with hrun | ⟨name, hmem, hbelow, hne⟩
  · exact .inl (hq.trans hrun)
  · refine .inr ⟨name, hmem, hq.trans hbelow, ?_⟩
    rintro rfl
    exact hne (hbelow.eq_of_length_le hq.length_le)

/-- Relative paths begin where the command is run, and absolute ones at the root. -/
theorem hasDirectory_start : w.hasDirectory (w.start path) := by
  refine hasDirectory_iff.2 (.inl ?_)
  rw [start]
  split
  · exact List.nil_prefix
  · exact List.prefix_rfl

/-- Everything around a place is a directory. -/
def IsPlace (w : Workspace) (place : List String) : Prop :=
  ∀ q, q <+: place → q ≠ place → w.hasDirectory q

theorem isPlace_of_isPrefix (hhere : w.hasDirectory here) (hplace : place <+: here) :
    w.IsPlace place :=
  fun _ hq _ => hasDirectory_of_isPrefix hhere (hq.trans hplace)

theorem isPlace_concat (hhere : w.hasDirectory here) (part : String) :
    w.IsPlace (here ++ [part]) := by
  intro q hq hne
  rw [List.prefix_concat_iff] at hq
  exact hasDirectory_of_isPrefix hhere (hq.resolve_left hne)

/-! ## Paths -/

theorem follow_nil (here : List String) : w.follow here [] = some here := by
  rw [follow]

/-- The first part, then the others. -/
theorem follow_cons (here : List String) (part : String) (rest : List String) :
    w.follow here (part :: rest)
      = (w.follow here [part]).bind fun there => w.follow there rest := by
  simp only [follow]
  split
  · rfl
  · split <;> rfl

theorem follow_append (here front back : List String) :
    w.follow here (front ++ back)
      = (w.follow here front).bind fun there => w.follow there back := by
  induction front generalizing here with
  | nil => rw [List.nil_append, follow_nil, Option.bind_some]
  | cons part front ih =>
    rw [List.cons_append, follow_cons, follow_cons here part front, Option.bind_assoc]
    exact congrArg _ (funext ih)

theorem follow_part {part : String} (hhere : w.hasDirectory here) (hpart : part ≠ Path.up) :
    w.follow here [part] = some (here ++ [part]) := by
  rw [follow, hhere, if_neg (by decide), if_neg hpart, follow_nil]

/-- A last part leads from a directory to one around it or to a place in it. -/
theorem of_follow_part {part : String} (hfollow : w.follow here [part] = some place) :
    w.hasDirectory here ∧ (place <+: here ∨ place = here ++ [part]) := by
  rw [follow] at hfollow
  split at hfollow
  · cases hfollow
  · next hdirectory =>
    refine ⟨by simpa using hdirectory, ?_⟩
    split at hfollow
    · cases hfollow
      exact .inl (List.dropLast_prefix here)
    · cases hfollow
      exact .inr rfl

/-- Paths lead only to places. -/
theorem isPlace_of_resolve (hresolve : w.resolve path = some place) : w.IsPlace place := by
  rw [resolve] at hresolve
  rcases List.eq_nil_or_concat' path.parts with hnil | ⟨front, last, hconcat⟩
  · rw [hnil, follow_nil] at hresolve
    cases hresolve
    exact isPlace_of_isPrefix hasDirectory_start List.prefix_rfl
  · rw [hconcat, follow_append] at hresolve
    obtain ⟨here, -, hlast⟩ := Option.bind_eq_some_iff.1 hresolve
    obtain ⟨hhere, hplace | rfl⟩ := of_follow_part hlast
    · exact isPlace_of_isPrefix hhere hplace
    · exact isPlace_concat hhere last

/-! ## Writing -/

theorem mem_putFile_iff {files : List (List String × ByteArray)} {name : List String} :
    name ∈ (putFile place content files).map Prod.fst
      ↔ name = place ∨ name ∈ files.map Prod.fst := by
  induction files with
  | nil => simp [putFile]
  | cons file files ih =>
    obtain ⟨first, old⟩ := file
    rw [putFile]
    split
    · next hfirst => simp [hfirst]
    · simp only [List.map_cons, List.mem_cons, ih]
      tauto

theorem lookup_putFile_self (files : List (List String × ByteArray)) :
    (putFile place content files).lookup place = some content := by
  induction files with
  | nil => simp [putFile]
  | cons file files ih =>
    obtain ⟨first, old⟩ := file
    rw [putFile]
    split
    · next hfirst => simp [hfirst]
    · next hfirst =>
      rw [List.lookup_cons, beq_false_of_ne (Ne.symm hfirst)]
      exact ih

theorem lookup_putFile_other (files : List (List String × ByteArray)) (hq : q ≠ place) :
    (putFile place content files).lookup q = files.lookup q := by
  induction files with
  | nil => simp [putFile, List.lookup_cons, beq_false_of_ne hq]
  | cons file files ih =>
    obtain ⟨first, old⟩ := file
    rw [putFile]
    split
    · next hfirst =>
      have hne : q ≠ first := hfirst ▸ hq
      simp [List.lookup_cons, beq_false_of_ne hne]
    · rw [List.lookup_cons, List.lookup_cons, ih]

theorem write_inside (hresolve : w.resolve path = some place) :
    w.write path content = { w with files := putFile place content w.files } := by
  rw [write, hresolve]

/-- Writing a file makes no directory. -/
theorem hasDirectory_write (path : Path) (content : ByteArray) (q : List String) :
    (w.write path content).hasDirectory q = w.hasDirectory q := by
  cases hresolve : w.resolve path with
  | some place =>
    have hplace := isPlace_of_resolve hresolve
    rw [write_inside hresolve, Bool.eq_iff_iff, hasDirectory_iff, hasDirectory_iff]
    simp only [mem_putFile_iff]
    constructor
    · rintro (hq | ⟨name, rfl | hmem, hbelow, hne⟩)
      · exact .inl hq
      · exact hasDirectory_iff.1 (hplace q hbelow hne)
      · exact .inr ⟨name, hmem, hbelow, hne⟩
    · rintro (hq | ⟨name, hmem, hbelow, hne⟩)
      · exact .inl hq
      · exact .inr ⟨name, .inr hmem, hbelow, hne⟩
  | none => rw [write, hresolve]

theorem follow_write (path : Path) (content : ByteArray) (here rest : List String) :
    (w.write path content).follow here rest = w.follow here rest := by
  fun_induction follow w here rest with
  | case1 here => rw [follow_nil]
  | case2 here part rest hdirectory => rw [follow, hasDirectory_write, if_pos hdirectory]
  | case3 here rest hdirectory ih =>
    rw [follow, hasDirectory_write, if_neg hdirectory, if_pos rfl, ih]
  | case4 here part rest hdirectory hpart ih =>
    rw [follow, hasDirectory_write, if_neg hdirectory, if_neg hpart, ih]

theorem directory_write (path : Path) (content : ByteArray) :
    (w.write path content).directory = w.directory := by
  rw [write]
  split <;> rfl

/-- After a file was written, every path leads where it led before. -/
theorem resolve_write (path : Path) (content : ByteArray) (other : Path) :
    (w.write path content).resolve other = w.resolve other := by
  rw [resolve, resolve, start, start, directory_write, follow_write]

theorem find_write_self (hresolve : w.resolve path = some place) :
    (w.write path content).find path = .file content := by
  have hfile : (w.write path content).file? place = some content := by
    rw [file?, write_inside hresolve]
    exact lookup_putFile_self w.files
  rw [find, resolve_write, hresolve]
  simp only [hfile]

theorem find_write_other (hother : w.resolve other ≠ w.resolve path) :
    (w.write path content).find other = w.find other := by
  cases hresolve : w.resolve path with
  | some place =>
    rw [find, find, resolve_write]
    cases hplace : w.resolve other with
    | some q =>
      have hfile : (w.write path content).file? q = w.file? q := by
        rw [hplace, hresolve] at hother
        rw [file?, write_inside hresolve]
        exact lookup_putFile_other w.files fun heq => hother (by rw [heq])
      simp only [hfile, hasDirectory_write]
    | none => rfl
  | none => rw [write, hresolve]

/-- Only a place can hold a file. -/
theorem exists_of_find_file (hfound : w.find path = .file content) :
    ∃ place, w.resolve path = some place := by
  rw [find] at hfound
  split at hfound
  · next place hresolve => exact ⟨place, hresolve⟩
  · cases hfound

/-! ## The two files of the command -/

/-- Where the trace goes. -/
def tracePlace (w : Workspace) : List String :=
  w.directory ++ ["debug.txt"]

theorem resolve_tracePath : w.resolve tracePath = some w.tracePlace := by
  rw [show tracePath = { parts := ["debug.txt"] } by decide]
  have hstart : w.hasDirectory (w.start { parts := ["debug.txt"] }) := hasDirectory_start
  exact follow_part hstart (by decide)

theorem emittedPath_of_nil (hparts : path.parts = []) : emittedPath path = path := by
  rw [emittedPath, Path.extend, hparts]
  rfl

theorem emittedPath_of_concat {front : List String} {last : String}
    (hparts : path.parts = front ++ [last]) :
    emittedPath path = { path with parts := front ++ [last ++ ".ast.json"] } := by
  rw [emittedPath, Path.extend, hparts, List.reverse_append]
  simp

theorem append_ending_ne {last s : String} (hs : s.toList.getLast? ≠ some 'n') :
    last ++ ".ast.json" ≠ s := by
  rintro rfl
  exact hs (by simp)

theorem start_ne_tracePlace : w.start path ≠ w.tracePlace := by
  rw [start, tracePlace]
  split <;> simp

/-- A tree is saved beside its source file, and not where the trace goes. -/
theorem exists_resolve_emittedPath (hfound : w.find path = .file content) :
    ∃ place, w.resolve (emittedPath path) = some place ∧ place ≠ w.tracePlace := by
  obtain ⟨place, hresolve⟩ := exists_of_find_file hfound
  rcases List.eq_nil_or_concat' path.parts with hnil | ⟨front, last, hconcat⟩
  · refine ⟨w.start path, ?_, start_ne_tracePlace⟩
    rw [emittedPath_of_nil hnil, resolve, hnil, follow_nil]
  · rw [resolve, hconcat, follow_append] at hresolve
    obtain ⟨here, hfront, hlast⟩ := Option.bind_eq_some_iff.1 hresolve
    obtain ⟨hhere, -⟩ := of_follow_part hlast
    have hup : last ++ ".ast.json" ≠ Path.up := append_ending_ne (by decide)
    refine ⟨here ++ [last ++ ".ast.json"], ?_, fun htrace => ?_⟩
    · rw [emittedPath_of_concat hconcat]
      change w.follow (w.start path) (front ++ [last ++ ".ast.json"]) = _
      rw [follow_append, hfront, Option.bind_some, follow_part hhere hup]
    · have hending := congrArg List.getLast? htrace
      rw [tracePlace, List.getLast?_concat, List.getLast?_concat] at hending
      exact append_ending_ne (by decide) (Option.some.inj hending)

end MiniAlgol.Command.Workspace
