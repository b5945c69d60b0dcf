import MiniAlgol.Proofs.Run.Rewriting

/-!
# Blocks within lists of statements

A block opens no scope, so in a list of statements it does what its statements do. `Node.splice`
puts the statements of such blocks in their place, at every depth and in the bodies of routines
too; blocks that are the branch of a conditional or the body of a loop stay. Running the spliced
program does the same as running the program (`runsTo_splice_iff`, `endsSpliced_splice_iff`): only
the routines that it declares have spliced bodies.
-/

namespace MiniAlgol

open MiniAlgol.Action

/-! ## Splicing -/

namespace Node

mutual

/-- The tree without blocks among the statements of a list. -/
def splice : Node → Node
  | program body => program (spliceAll body)
  | block body => block (spliceAll body)
  | ifStmt condition thenBranch elseBranch =>
    ifStmt condition (splice thenBranch) (splice elseBranch)
  | whileStmt condition body => whileStmt condition (splice body)
  | routineDecl kind name params body => routineDecl kind name params (spliceAll body)
  | n => n

/-- The statements of a list, with those of its blocks in place of the blocks. -/
def spliceAll : List Node → List Node
  | [] => []
  | block body :: rest => spliceAll body ++ spliceAll rest
  | n :: rest => splice n :: spliceAll rest

end

/-- A statement that is no block stays one statement. -/
theorem spliceAll_cons {n : Node} (hn : ∀ body, n ≠ block body) (rest : List Node) :
    spliceAll (n :: rest) = n.splice :: spliceAll rest := by
  cases n with
  | block body => exact absurd rfl (hn body)
  | _ => rw [spliceAll]; exact hn

theorem splice_ne_block {n : Node} (hn : ∀ body, n ≠ block body) (body : List Node) :
    n.splice ≠ block body := by
  cases n with
  | block body => exact absurd rfl (hn body)
  | _ => simp [splice]

theorem splice_eq_mapBodies : ∀ n : Node, n.splice = n.mapBodies spliceAll
  | .ifStmt condition thenBranch elseBranch => by
    rw [splice, mapBodies, splice_eq_mapBodies thenBranch, splice_eq_mapBodies elseBranch]
  | .whileStmt condition body => by rw [splice, mapBodies, splice_eq_mapBodies body]
  | .program _ | .block _ | .routineDecl .. => by rw [splice, mapBodies]
  | .missing | .varDecl .. | .arrayDecl .. | .assign .. => by simp [splice, mapBodies]
  | .indexAssign .. | .returnStmt _ | .exprStmt _ | .literal .. => by simp [splice, mapBodies]
  | .ident _ | .binary .. | .arrayAccess .. | .call .. => by simp [splice, mapBodies]

theorem spliceAll_append (xs ys : List Node) :
    spliceAll (xs ++ ys) = spliceAll xs ++ spliceAll ys := by
  induction xs with
  | nil => simp [spliceAll]
  | cons n rest ih =>
    by_cases hn : ∀ body, n ≠ block body
    · rw [List.cons_append, spliceAll_cons hn, spliceAll_cons hn, ih, List.cons_append]
    · obtain ⟨body, rfl⟩ := not_forall_not.1 hn
      rw [List.cons_append, spliceAll, spliceAll, ih, List.append_assoc]

mutual

theorem splice_splice : ∀ n : Node, n.splice.splice = n.splice
  | .program body => by rw [splice, splice, spliceAll_spliceAll body]
  | .block body => by rw [splice, splice, spliceAll_spliceAll body]
  | .routineDecl kind name params body => by rw [splice, splice, spliceAll_spliceAll body]
  | .ifStmt condition thenBranch elseBranch => by
    rw [splice, splice, splice_splice thenBranch, splice_splice elseBranch]
  | .whileStmt condition body => by rw [splice, splice, splice_splice body]
  | .missing | .varDecl .. | .arrayDecl .. | .assign .. | .indexAssign .. => by simp [splice]
  | .returnStmt _ | .exprStmt _ | .literal .. | .ident _ | .binary .. => by simp [splice]
  | .arrayAccess .. | .call .. => by simp [splice]

/-- Nothing is left to splice. -/
theorem spliceAll_spliceAll : ∀ body : List Node, spliceAll (spliceAll body) = spliceAll body
  | [] => by simp [spliceAll]
  | n :: rest => by
    by_cases hn : ∀ body, n ≠ block body
    · rw [spliceAll_cons hn, spliceAll_cons (splice_ne_block hn), splice_splice n,
        spliceAll_spliceAll rest]
    · cases n with
      | block body =>
        rw [spliceAll, spliceAll_append, spliceAll_spliceAll body, spliceAll_spliceAll rest]
      | _ => exact absurd nofun hn

end

end Node

/-! ## Splicing is faithful -/

theorem executeAll_append (fuel : Nat) (xs ys : List Node) :
    executeAll (fuel + 1) (xs ++ ys) =
      (executeAll (fuel + 1) xs >>= fun _ => executeAll (fuel + 1) ys) := by
  induction xs with
  | nil => simp only [List.nil_append, executeAll, forEach, pure_bind]
  | cons n rest ih => simp only [List.cons_append, executeAll_cons, ih, bind_assoc]

section Faithful

variable {φ : List Node → List Node} {k : Known} {f : Nat} {body flat : List Node}

/-- A block takes two steps down to its statements and has no result. -/
theorem execute_block_discard (fuel : Nat) (body : List Node) :
    (do let _ ← execute (fuel + 2) (.block body) : Action Unit) = executeAll (fuel + 1) body := by
  simp only [execute, bind_assoc, pure_bind]
  exact bind_pure_unit

theorem Mirrors.block
    (h : ∀ g ≤ f, Mirrors φ k g id (fun h => executeAll (h + 1) body)
      (fun h => executeAll (h + 1) flat)) :
    Mirrors φ k f id (fun g => do let _ ← execute g (.block body))
      (fun g => executeAll (g + 1) flat) := by
  intro m hends
  cases k with
  | first =>
    -- the block needs more fuel than its statements do in the list around it
    match f with
    | 0 => exact absurd rfl hends
    | 1 => exact absurd rfl hends
    | g + 2 =>
      simp only [Known.Ends, execute_block_discard] at hends
      obtain ⟨e, hfirst, hsecond⟩ := h g (by omega) m hends
      refine ⟨e, ?_, fun g' hg' => hsecond g' (by omega)⟩
      simp only [Known.OnFirst, execute_block_discard]
      exact hfirst
  | second =>
    obtain ⟨e, ⟨enough, hfirst⟩, hsecond⟩ := h f le_rfl m hends
    refine ⟨e, ⟨enough + 2, fun g hg => ?_⟩, hsecond⟩
    obtain ⟨g, rfl⟩ := Nat.exists_eq_add_of_le' (le_of_add_le_right hg)
    simp only [execute_block_discard]
    exact hfirst g (by omega)

/-- By recursion on the list and on the statements of its blocks. -/
theorem mirrors_spliceAll : ∀ {f : Nat} (body : List Node),
    (∀ g ≤ f, ∀ n : Node, Mirrors Node.spliceAll k g (Option.map (Value.mapBodies Node.spliceAll))
      (fun h => execute h n) (fun h => execute h n.splice)) →
    Mirrors Node.spliceAll k f id (fun g => executeAll (g + 1) body)
      (fun g => executeAll (g + 1) (Node.spliceAll body))
  | f, [], _ => by
    simp only [Node.spliceAll, executeAll, forEach]
    exact .pure rfl
  | f, n :: rest, h => by
    have hrest := mirrors_spliceAll rest h
    by_cases hn : ∀ body, n ≠ .block body
    · simp only [Node.spliceAll_cons hn, executeAll_cons]
      exact .bind (h f le_rfl n).discard fun _ => hrest
    · cases n with
      | block body =>
        simp only [Node.spliceAll, executeAll_append, executeAll_cons]
        refine .bind (.block fun g hg => ?_) fun _ => hrest
        exact mirrors_spliceAll body fun g' hg' => h g' (hg'.trans hg)
      | _ => exact absurd nofun hn

theorem faithful_spliceAll : Faithful Node.spliceAll := by
  intro k f h body
  refine mirrors_spliceAll body fun g hg n => ?_
  rw [Node.splice_eq_mapBodies]
  exact h g hg n

end Faithful

/-! ## Spliced programs -/

/-- The machine with spliced bodies in the routines that it holds. -/
def Machine.splice (m : Machine) : Machine :=
  m.mapBodies Node.spliceAll

/-- A fresh machine holds no bodies. -/
theorem Machine.splice_fresh (level : Int) : Machine.splice { level } = { level } := by
  have hscope : Scope.builtins.mapBodies Node.spliceAll = Scope.builtins := rfl
  have hheap : Heap.mapBodies Node.spliceAll #[] = #[] := Array.map_empty
  simp only [splice, mapBodies, hscope, hheap]

/-- The fault with spliced bodies in the value that it is about. -/
def Fault.splice (f : Fault) : Fault :=
  f.mapBodies Node.spliceAll

/-- The program, run on the machine, ends so once the bodies that it leaves are spliced. -/
def EndsSpliced (program : Node) (m : Machine) (r : Except Fault Unit) (m' : Machine) : Prop :=
  ∃ r₁ m₁, RunsTo program m r₁ m₁ ∧ r = r₁.mapError Fault.splice ∧ m' = m₁.splice

section Programs

variable {program : Node} {m m' : Machine} {r : Except Fault Unit}

/-- From spliced bodies the spliced program gets to what the program gets to, with spliced
bodies. -/
theorem runsTo_splice_iff :
    RunsTo program.splice m.splice r m' ↔ EndsSpliced program m r m' := by
  rw [Node.splice_eq_mapBodies]
  constructor
  · exact faithful_spliceAll.exists_runsTo
  · rintro ⟨r₁, m₁, h, rfl, rfl⟩
    exact faithful_spliceAll.runsTo h

/-- From any bodies the two programs end alike, but for how far bodies are spliced. -/
theorem endsSpliced_splice_iff :
    EndsSpliced program.splice m r m' ↔ EndsSpliced program m r m' := by
  rw [← runsTo_splice_iff, ← runsTo_splice_iff, Node.splice_splice]

end Programs

end MiniAlgol
