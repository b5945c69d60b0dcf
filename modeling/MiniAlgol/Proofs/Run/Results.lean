import MiniAlgol.Proofs.Run.Visits
import MiniAlgol.Proofs.Run.WriteSet

/-!
# The result of a call

`return` ends nothing: it binds the name of the result and the statements after it run as well. What
a call gives is then whatever this name stands for when the body is done. `Task.Returns` follows a
run through the statements of one activation and collects the values of the `return`s that it comes
to, in order; what is called on the way is part of an evaluation and is not looked into, so that no
`return` of another activation is among them. A run ends with a result exactly when it can be
followed so (`Task.ends_iff_returns`), and in one way only (`Task.Returns.unique`).

As long as nothing else binds the name of the result (`Task.Spares`), it stands for the last of
these values (`Task.Returns.result`), which is then what the call gives (`call_gives_last_return`).
-/

namespace MiniAlgol

open MiniAlgol.Action

/-! ## Statements that do not bind a word -/

namespace Node

mutual

/-- Whether a statement declares or assigns this word where it runs. The bodies of the routines that
it declares are not looked at. -/
def binds (word : String) : Node → Bool
  | varDecl _ name _ => isWord word name
  | arrayDecl name _ _ _ => isWord word name
  | assign name _ => isWord word name
  | routineDecl _ name _ _ => isWord word name
  | block body => bindsAny word body
  | ifStmt _ thenBranch elseBranch => binds word thenBranch || binds word elseBranch
  | whileStmt _ body => binds word body
  | _ => false

/-- Whether one of some statements binds this word. -/
def bindsAny (word : String) : List Node → Bool
  | [] => false
  | n :: ns => binds word n || bindsAny word ns

end

/-- Whether the node is a statement that neither has other statements in it nor is a `return`. -/
def isSingle : Node → Bool
  | varDecl .. | arrayDecl .. | assign .. | indexAssign .. | routineDecl .. | exprStmt _ => true
  | _ => false

end Node

theorem key_eq_word_iff {label : Label} {word : String} :
    Key.ofLabel? label = some (.word word) ↔ isWord word label := by
  cases label with
  | str s => simp [Key.ofLabel?, isWord]
  | _ => simp [Key.ofLabel?, isWord]

theorem Node.word_notMem_written {n : Node} {word : String} (hsingle : n.isSingle)
    (hn : n.binds word = false) : Key.word word ∉ n.written := by
  have hname : ∀ name : Label, isWord word name = false →
      Key.word word ∉ [name].filterMap Key.ofLabel? := by
    intro name hname hmem
    obtain ⟨label, hlabel, hkey⟩ := List.mem_filterMap.1 hmem
    rw [List.mem_singleton] at hlabel
    subst hlabel
    rw [key_eq_word_iff, hname] at hkey
    cases hkey
  cases n with
  | varDecl tag name init => exact hname name hn
  | arrayDecl name elem extents init => exact hname name hn
  | assign name value => exact hname name hn
  | routineDecl kind name params body => exact hname name hn
  | indexAssign name indices value => simp [Node.written, Node.targets]
  | exprStmt value => simp [Node.written, Node.targets]
  | _ => cases hsingle

/-! ## The `return`s of an activation -/

namespace Task

/-- The task, run on the first machine, comes to its end on the second one, after `return`s in the
same activation that had these values. -/
inductive Returns : Task → Machine → List Value → Machine → Prop where
  | single {f n m m' r} (hn : n.isSingle) (h : (MiniAlgol.execute f n).on m = (.ok r, m')) :
      Returns (.execute f n) m [] m'
  | returned {f value m v m'} (h : (MiniAlgol.evaluate f value).on m = (.ok v, m')) :
      Returns (.execute (f + 1) (.returnStmt value)) m [v]
        { m' with scope := m'.scope.set (Name.ofWord Scope.resultWord) v }
  | block {f body m vs m'} (h : Returns (.executeAll f body) m vs m') :
      Returns (.execute (f + 1) (.block body)) m vs m'
  | thenBranch {f condition x y m m₁ vs m'} (htest : (testIf f condition).on m = (.ok true, m₁))
      (h : Returns (.execute f x) m₁ vs m') :
      Returns (.execute (f + 1) (.ifStmt condition x y)) m vs m'
  | elseBranch {f condition x y m m₁ vs m'} (htest : (testIf f condition).on m = (.ok false, m₁))
      (hy : y.isMissing = false) (h : Returns (.execute f y) m₁ vs m') :
      Returns (.execute (f + 1) (.ifStmt condition x y)) m vs m'
  | noBranch {f condition x y m m'} (htest : (testIf f condition).on m = (.ok false, m'))
      (hy : y.isMissing) : Returns (.execute (f + 1) (.ifStmt condition x y)) m [] m'
  | skipped {f condition x m m'}
      (htest : (do requireBool "while" (← MiniAlgol.evaluate f condition)).on m
        = (.ok false, m')) :
      Returns (.execute (f + 1) (.whileStmt condition x)) m [] m'
  | entered {f condition x m m₁ vs m'}
      (htest : (do requireBool "while" (← MiniAlgol.evaluate f condition)).on m
        = (.ok true, m₁))
      (h : Returns (.repeatWhile f condition x) m₁ vs m') :
      Returns (.execute (f + 1) (.whileStmt condition x)) m vs m'
  | lastPass {f condition x m vs m₁ m'} (h : Returns (.execute f x) m vs m₁)
      (htest : (do passTest (← MiniAlgol.evaluate f condition)).on m₁ = (.ok false, m')) :
      Returns (.repeatWhile (f + 1) condition x) m vs m'
  | pass {f condition x m vs m₁ m₂ ws m'} (h : Returns (.execute f x) m vs m₁)
      (htest : (do passTest (← MiniAlgol.evaluate f condition)).on m₁ = (.ok true, m₂))
      (hrest : Returns (.repeatWhile f condition x) m₂ ws m') :
      Returns (.repeatWhile (f + 1) condition x) m (vs ++ ws) m'
  | noStatement {f m} : Returns (.executeAll (f + 1) []) m [] m
  | statement {f n rest m vs m₁ ws m'} (h : Returns (.execute f n) m vs m₁)
      (hrest : Returns (.executeAll (f + 1) rest) m₁ ws m') :
      Returns (.executeAll (f + 1) (n :: rest)) m (vs ++ ws) m'

theorem repeatWhile_test (f : Nat) (condition body : Node) :
    MiniAlgol.repeatWhile (f + 1) condition body = (do
      let _ ← MiniAlgol.execute f body
      let b ← (do passTest (← MiniAlgol.evaluate f condition))
      if b then MiniAlgol.repeatWhile f condition body) := by
  simp only [MiniAlgol.repeatWhile_succ, bind_assoc]

/-- The task gives a result and leaves the second machine. -/
def Ends : Task → Machine → Machine → Prop
  | execute f n, m, m' => ∃ r, (MiniAlgol.execute f n).on m = (.ok r, m')
  | executeAll f body, m, m' => (MiniAlgol.executeAll f body).on m = (.ok (), m')
  | repeatWhile f condition body, m, m' =>
    (MiniAlgol.repeatWhile f condition body).on m = (.ok (), m')
  | _, _, _ => False

variable {t : Task} {f : Nat} {m m' m'' : Machine} {vs ws : List Value}

theorem Ends.unique (h : t.Ends m m') (h' : t.Ends m m'') : m' = m'' := by
  cases t with
  | execute f n =>
    obtain ⟨r, h⟩ := h
    obtain ⟨r', h'⟩ := h'
    exact congrArg Prod.snd (h.symm.trans h')
  | executeAll f body => exact congrArg Prod.snd (h.symm.trans h')
  | repeatWhile f condition body => exact congrArg Prod.snd (h.symm.trans h')
  | _ => cases h

/-- What can be followed to its end does end there. -/
theorem Returns.ends (h : Returns t m vs m') : t.Ends m m' := by
  induction h with
  | single _ h => exact ⟨_, h⟩
  | @returned f value m v m' h =>
    refine ⟨some v, ?_⟩
    simp only [MiniAlgol.execute]
    rw [on_bind, h]
    rfl
  | block _ ih =>
    refine ⟨none, ?_⟩
    simp only [MiniAlgol.execute]
    rw [on_bind, ih]
    rfl
  | thenBranch htest _ ih =>
    obtain ⟨r, ih⟩ := ih
    refine ⟨none, ?_⟩
    rw [execute_ifStmt, on_bind, htest]
    simp only [↓reduceIte]
    rw [on_bind, ih]
    rfl
  | elseBranch htest hy _ ih =>
    obtain ⟨r, ih⟩ := ih
    refine ⟨none, ?_⟩
    rw [execute_ifStmt, on_bind, htest]
    simp only [hy, Bool.false_eq_true, ↓reduceIte]
    rw [on_bind, ih]
    rfl
  | noBranch htest hy =>
    refine ⟨none, ?_⟩
    rw [execute_ifStmt, on_bind, htest]
    simp only [hy, Bool.false_eq_true, ↓reduceIte]
    rfl
  | skipped htest =>
    refine ⟨none, ?_⟩
    rw [execute_whileStmt, on_bind, htest]
    rfl
  | entered htest _ ih =>
    refine ⟨none, ?_⟩
    rw [execute_whileStmt, on_bind, htest]
    simp only [↓reduceIte]
    rw [on_bind, ih]
    rfl
  | @lastPass f condition x m vs m₁ m' _ htest ih =>
    obtain ⟨r, ih⟩ := ih
    show (MiniAlgol.repeatWhile (f + 1) condition x).on m = _
    rw [repeatWhile_test, on_bind, ih]
    simp only
    rw [on_bind, htest]
    rfl
  | @pass f condition x m vs m₁ m₂ ws m' _ htest _ ih ihRest =>
    obtain ⟨r, ih⟩ := ih
    show (MiniAlgol.repeatWhile (f + 1) condition x).on m = _
    rw [repeatWhile_test, on_bind, ih]
    simp only
    rw [on_bind, htest]
    exact ihRest
  | noStatement => rfl
  | @statement f n rest m vs m₁ ws m' _ _ ih ihRest =>
    obtain ⟨r, ih⟩ := ih
    show (MiniAlgol.executeAll (f + 1) (n :: rest)).on m = _
    rw [executeAll_cons, on_bind, on_bind, ih]
    exact ihRest

/-- What ends with this fuel can be followed to its end. -/
structure Followed (f : Nat) : Prop where
  execute : ∀ {n m r m'}, (MiniAlgol.execute f n).on m = (.ok r, m') →
    ∃ vs, Returns (.execute f n) m vs m'
  executeAll : ∀ {body m m'}, (MiniAlgol.executeAll f body).on m = (.ok (), m') →
    ∃ vs, Returns (.executeAll f body) m vs m'
  repeatWhile : ∀ {condition body m m'},
    (MiniAlgol.repeatWhile f condition body).on m = (.ok (), m') →
    ∃ vs, Returns (.repeatWhile f condition body) m vs m'

theorem Followed.execute_succ (ih : Followed f) {n : Node} {r : Option Value}
    (h : (MiniAlgol.execute (f + 1) n).on m = (.ok r, m')) :
    ∃ vs, Returns (.execute (f + 1) n) m vs m' := by
  cases n with
  | block body =>
    simp only [MiniAlgol.execute] at h
    obtain ⟨_, m₁, hbody, hdone⟩ := on_bind_ok h
    cases hdone
    obtain ⟨vs, hvs⟩ := ih.executeAll hbody
    exact ⟨vs, .block hvs⟩
  | ifStmt condition x y =>
    rw [execute_ifStmt] at h
    obtain ⟨b, m₁, htest, hbranch⟩ := on_bind_ok h
    cases b with
    | true =>
      obtain ⟨_, m₂, hx, hdone⟩ := on_bind_ok hbranch
      cases hdone
      obtain ⟨vs, hvs⟩ := ih.execute hx
      exact ⟨vs, .thenBranch htest hvs⟩
    | false =>
      simp only [Bool.false_eq_true, ↓reduceIte] at hbranch
      cases hy : y.isMissing with
      | true =>
        rw [hy] at hbranch
        cases hbranch
        exact ⟨[], .noBranch htest hy⟩
      | false =>
        rw [hy] at hbranch
        obtain ⟨_, m₂, hy', hdone⟩ := on_bind_ok hbranch
        cases hdone
        obtain ⟨vs, hvs⟩ := ih.execute hy'
        exact ⟨vs, .elseBranch htest hy hvs⟩
  | whileStmt condition x =>
    rw [execute_whileStmt] at h
    obtain ⟨b, m₁, htest, hpasses⟩ := on_bind_ok h
    cases b with
    | true =>
      obtain ⟨_, m₂, hx, hdone⟩ := on_bind_ok hpasses
      cases hdone
      obtain ⟨vs, hvs⟩ := ih.repeatWhile hx
      exact ⟨vs, .entered htest hvs⟩
    | false =>
      cases hpasses
      exact ⟨[], .skipped htest⟩
  | returnStmt value =>
    simp only [MiniAlgol.execute] at h
    obtain ⟨v, m₁, hv, hbound⟩ := on_bind_ok h
    cases hbound
    exact ⟨[v], .returned hv⟩
  | varDecl | arrayDecl | assign | indexAssign | routineDecl | exprStmt => exact ⟨[], .single rfl h⟩
  | _ => cases h

theorem Followed.executeAll_succ (ih : Followed f) {body : List Node}
    (h : (MiniAlgol.executeAll (f + 1) body).on m = (.ok (), m')) :
    ∃ vs, Returns (.executeAll (f + 1) body) m vs m' := by
  induction body generalizing m with
  | nil =>
    cases h
    exact ⟨[], .noStatement⟩
  | cons n rest ihRest =>
    rw [executeAll_cons] at h
    obtain ⟨_, m₁, hfirst, hrest⟩ := on_bind_ok h
    obtain ⟨r, m₂, hn, hdone⟩ := on_bind_ok hfirst
    cases hdone
    obtain ⟨vs, hvs⟩ := ih.execute hn
    obtain ⟨ws, hws⟩ := ihRest hrest
    exact ⟨vs ++ ws, .statement hvs hws⟩

theorem Followed.repeatWhile_succ (ih : Followed f) {condition body : Node}
    (h : (MiniAlgol.repeatWhile (f + 1) condition body).on m = (.ok (), m')) :
    ∃ vs, Returns (.repeatWhile (f + 1) condition body) m vs m' := by
  rw [repeatWhile_test] at h
  obtain ⟨r, m₁, hbody, htested⟩ := on_bind_ok h
  obtain ⟨b, m₂, htest, hrest⟩ := on_bind_ok htested
  obtain ⟨vs, hvs⟩ := ih.execute hbody
  cases b with
  | true =>
    obtain ⟨ws, hws⟩ := ih.repeatWhile hrest
    exact ⟨vs ++ ws, .pass hvs htest hws⟩
  | false =>
    cases hrest
    exact ⟨vs, .lastPass hvs htest⟩

theorem followed : ∀ f, Followed f
  | 0 => ⟨nofun, nofun, nofun⟩
  | f + 1 =>
    have ih := followed f
    ⟨ih.execute_succ, ih.executeAll_succ, ih.repeatWhile_succ⟩

/-- A task ends with a result where its `return`s can be collected to the end. -/
theorem ends_iff_returns : t.Ends m m' ↔ ∃ vs, Returns t m vs m' := by
  refine ⟨fun h => ?_, fun ⟨vs, h⟩ => h.ends⟩
  cases t with
  | execute f n =>
    obtain ⟨r, h⟩ := h
    exact (followed f).execute h
  | executeAll f body => exact (followed f).executeAll h
  | repeatWhile f condition body => exact (followed f).repeatWhile h
  | _ => cases h

/-- The `return`s that a task comes to are those of the one run that it has. -/
theorem Returns.unique (h : Returns t m vs m') (h' : Returns t m ws m'') : vs = ws := by
  induction h generalizing ws m'' with
  | single hn _ => cases h' <;> first | rfl | cases hn
  | returned h =>
    cases h' with
    | single hn _ => cases hn
    | returned h' =>
      cases h.symm.trans h'
      rfl
  | block _ ih =>
    cases h' with
    | single hn _ => cases hn
    | block h' => exact ih h'
  | thenBranch htest _ ih =>
    cases h' with
    | single hn _ => cases hn
    | thenBranch htest' h' =>
      cases htest.symm.trans htest'
      exact ih h'
    | elseBranch htest' | noBranch htest' => cases htest.symm.trans htest'
  | elseBranch htest hy _ ih =>
    cases h' with
    | single hn _ => cases hn
    | thenBranch htest' _ => cases htest.symm.trans htest'
    | elseBranch htest' _ h' =>
      cases htest.symm.trans htest'
      exact ih h'
    | noBranch _ hy' => cases hy.symm.trans hy'
  | noBranch htest hy =>
    cases h' with
    | single hn _ => cases hn
    | thenBranch htest' _ => cases htest.symm.trans htest'
    | elseBranch _ hy' _ => cases hy.symm.trans hy'
    | noBranch _ _ => rfl
  | skipped htest =>
    cases h' with
    | single hn _ => cases hn
    | skipped _ => rfl
    | entered htest' _ => cases htest.symm.trans htest'
  | entered htest _ ih =>
    cases h' with
    | single hn _ => cases hn
    | skipped htest' => cases htest.symm.trans htest'
    | entered htest' h' =>
      cases htest.symm.trans htest'
      exact ih h'
  | lastPass h htest ih =>
    cases h' with
    | lastPass h' _ => exact ih h'
    | pass h' htest' _ =>
      cases h.ends.unique h'.ends
      cases htest.symm.trans htest'
  | pass h htest _ ih ihRest =>
    -- both runs test the condition on the machine that the body leaves, which is one machine
    cases h' with
    | lastPass h' htest' =>
      cases h.ends.unique h'.ends
      cases htest.symm.trans htest'
    | pass h' htest' hrest' =>
      cases h.ends.unique h'.ends
      cases htest.symm.trans htest'
      rw [ih h', ihRest hrest']
  | noStatement =>
    cases h'
    rfl
  | statement h _ ih ihRest =>
    cases h' with
    | statement h' hrest' =>
      cases h.ends.unique h'.ends
      rw [ih h', ihRest hrest']

/-! ## What stands for the result -/

/-- None of the statements of the task binds this word. -/
def Spares (word : String) : Task → Prop
  | execute _ n => n.binds word = false
  | executeAll _ body => Node.bindsAny word body = false
  | repeatWhile _ _ body => body.binds word = false
  | _ => True

theorem scope_of_keeps {α : Type} {x : Action α} {a : α} (hx : Keeps Machine.scope x)
    (h : x.on m = (.ok a, m')) : m'.scope = m.scope := by
  have hscope := hx m
  rwa [h] at hscope

theorem keeps_scope_test (construct : String) (f : Nat) (condition : Node) :
    Keeps Machine.scope (do requireBool construct (← MiniAlgol.evaluate f condition)) :=
  keeps_bind (keeps_scope_evaluate f condition) fun v =>
    (observing_keeps fun _ _ => rfl).requireBool construct v

theorem keeps_scope_testIf (f : Nat) (condition : Node) :
    Keeps Machine.scope (testIf f condition) :=
  keeps_bind (keeps_scope_evaluate f condition) fun v =>
    keeps_bind ((observing_keeps fun _ _ => rfl).requireBool "if" v) fun _ =>
      keeps_bind (keeps_record (fun _ _ => rfl) 3 _) fun _ => keeps_pure _

theorem keeps_scope_passTest (f : Nat) (condition : Node) :
    Keeps Machine.scope (do passTest (← MiniAlgol.evaluate f condition)) :=
  keeps_bind (keeps_scope_evaluate f condition) fun v =>
    keeps_bind (keeps_record (fun _ _ => rfl) 3 _) fun _ =>
      (observing_keeps fun _ _ => rfl).requireBool "while" v

/-- Where nothing else binds its name, the result is that of the last `return`, or what it was
before if there was none. -/
theorem Returns.result (h : Returns t m vs m') (hspares : t.Spares Scope.resultWord) :
    m'.scope.get? (.word Scope.resultWord)
      = vs.getLast?.or (m.scope.get? (.word Scope.resultWord)) := by
  induction h with
  | @single f n m m' r hn h =>
    -- what is called in the statement has a scope of its own, so only its own targets count
    have hwrites := (writesTargets f).execute n m
    rw [h] at hwrites
    exact hwrites.other _ (Node.word_notMem_written hn hspares)
  | returned _ =>
    rw [Scope.get?_set]
    rfl
  | block _ ih => exact ih hspares
  | thenBranch htest _ ih =>
    rw [Spares, Node.binds, Bool.or_eq_false_iff] at hspares
    rw [ih hspares.1, scope_of_keeps (keeps_scope_testIf _ _) htest]
  | elseBranch htest _ _ ih =>
    rw [Spares, Node.binds, Bool.or_eq_false_iff] at hspares
    rw [ih hspares.2, scope_of_keeps (keeps_scope_testIf _ _) htest]
  | noBranch htest _ =>
    rw [scope_of_keeps (keeps_scope_testIf _ _) htest]
    rfl
  | skipped htest =>
    rw [scope_of_keeps (keeps_scope_test _ _ _) htest]
    rfl
  | entered htest _ ih =>
    rw [ih hspares, scope_of_keeps (keeps_scope_test _ _ _) htest]
  | lastPass _ htest ih =>
    rw [scope_of_keeps (keeps_scope_passTest _ _) htest, ih hspares]
  | pass _ htest _ ih ihRest =>
    rw [ihRest hspares, scope_of_keeps (keeps_scope_passTest _ _) htest, ih hspares,
      List.getLast?_append, Option.or_assoc]
  | noStatement => rfl
  | statement _ _ ih ihRest =>
    rw [Spares, Node.bindsAny, Bool.or_eq_false_iff] at hspares
    rw [ihRest hspares.2, ih hspares.1, List.getLast?_append, Option.or_assoc]

end Task

/-! ## Calls -/

/-- A word that is no parameter has no value when a call starts. -/
theorem get?_ofArguments {params : List Label} {args : List Value} {start : Scope} {word : String}
    (h : Scope.ofArguments params args = .ok start)
    (hparams : ∀ p ∈ params, isWord word p = false) : start.get? (.word word) = none := by
  obtain ⟨names, hnames, h⟩ := bind_ok h
  cases h
  refine Scope.get?_foldl_set _ _ fun b hb hkey => ?_
  obtain ⟨p, hp, hname⟩ := exists_of_mem_mapM hnames (List.of_mem_zip hb).1
  have hword := Name.key_of_ofLabel hname
  rw [hkey, key_eq_word_iff, hparams p hp] at hword
  cases hword

/-- A record that succeeds has changed the trace at most. -/
theorem exists_of_record_ok {level : Int} {event : Heap → Except Fault Event} {m m' : Machine}
    (h : (record level event).on m = (.ok (), m')) : ∃ traced, m' = { m with traced } := by
  rw [on_record] at h
  split at h
  · split at h
    · next e _ =>
      obtain ⟨traced, hnote⟩ := exists_note m e
      cases h
      exact ⟨traced, hnote⟩
    · cases h
  · cases h
    exact ⟨m.traced, rfl⟩

/-- An activation that gives a result has run its body in a scope of its own, and gives what stands
for the result there. -/
theorem exists_of_activate_ok {r : Routine} {args : List Value} {body : Action Unit}
    {m m' : Machine} {v : Value} (h : (activate r args body).on m = (.ok v, m')) :
    ∃ start traced m₁, Scope.ofArguments r.params args = .ok start ∧
      body.on { m with scope := start, calls := r.name :: m.calls, traced } = (.ok (), m₁) ∧
      v = (m₁.scope.get? (.word Scope.resultWord)).getD .undefined ∧
      ∃ traced', m' = { m₁ with scope := m.scope, calls := m₁.calls.tail, traced := traced' } := by
  unfold activate at h
  cases hstart : Scope.ofArguments r.params args with
  | error f =>
    rw [hstart] at h
    cases h
  | ok start =>
    rw [hstart] at h
    obtain ⟨_, m₁, hopen, hbody⟩ := on_bind_ok h
    cases hopen
    obtain ⟨_, m₂, hopen, hrecorded⟩ := on_bind_ok hbody
    cases hopen
    obtain ⟨_, m₃, hcall, hran⟩ := on_bind_ok hrecorded
    obtain ⟨traced, rfl⟩ := exists_of_record_ok hcall
    obtain ⟨⟨_, scope⟩, m₄, hin, hdone⟩ := on_bind_ok hran
    obtain ⟨_, m₅, hreturn, hv⟩ := on_bind_ok hdone
    obtain ⟨traced', rfl⟩ := exists_of_record_ok hreturn
    rw [on_inCall] at hin
    rcases hon : body.on { m with scope := start, calls := r.name :: m.calls, traced } with ⟨e, m₆⟩
    simp only [hon] at hin
    cases e with
    | error s => cases hin
    | ok _ =>
      cases hin
      cases hv
      exact ⟨start, traced, m₆, rfl, hon, rfl, traced', rfl⟩

/-- A call of a routine that gives a value has run the statements of the body in order, in a scope
that has the parameters only, and the value is that of the last `return` that this activation came
to, or undefined if it came to none. This holds if neither the parameters nor the statements, apart
from the bodies of routines declared among them, bind the name of the result themselves. -/
theorem call_gives_last_return {fuel : Nat} {m m' : Machine} {name : Label} {args : List Value}
    {id : Nat} {r : Routine} {v : Value}
    (hcallee : (callee name).on m = (.ok (some (.routine id r)), m))
    (hparams : ∀ p ∈ r.params, isWord Scope.resultWord p = false)
    (hbody : Node.bindsAny Scope.resultWord r.body = false)
    (h : (invoke (fuel + 1) name args).on m = (.ok v, m')) :
    ∃ start traced vs m₁, Scope.ofArguments r.params args = .ok start ∧
      Task.Returns (.executeAll fuel r.body)
        { m with scope := start, calls := r.name :: m.calls, traced } vs m₁ ∧
      v = vs.getLast?.getD .undefined ∧
      m'.scope = m.scope ∧ m'.heap = m₁.heap ∧ m'.printed = m₁.printed ∧
      ∀ ws m₂, Task.Returns (.executeAll fuel r.body)
        { m with scope := start, calls := r.name :: m.calls, traced } ws m₂ → ws = vs := by
  rw [invoke_succ, on_bind, hcallee] at h
  simp only [callValue] at h
  split at h
  · obtain ⟨start, traced, m₁, hstart, hran, hv, traced', rfl⟩ := exists_of_activate_ok h
    obtain ⟨vs, hvs⟩ := Task.ends_iff_returns.1
      (show Task.Ends (.executeAll fuel r.body) _ m₁ from hran)
    have hresult := hvs.result hbody
    rw [get?_ofArguments hstart hparams, Option.or_none] at hresult
    refine ⟨start, traced, vs, m₁, hstart, hvs, ?_, rfl, rfl, rfl, fun ws m₂ hws => hws.unique hvs⟩
    rw [hv, hresult]
  · cases h

/-- Returns `n` and then calls `g`, which may be the routine itself, for the numbers below. -/
def countDown : Routine where
  name := "f"
  params := [.str "g", .str "n"]
  body := [.returnStmt (.ident "n"),
    .ifStmt (.binary .comparison ">" (.ident "n") (.literal "0" "int"))
      (.block [.exprStmt (.call "g"
        [.ident "g", .binary .additive "-" (.ident "n") (.literal "1" "int")])]) .missing]
  kind := "function"

theorem call_gives_last_return_countDown :
    let f : Value := .routine 1 countDown
    let m : Machine := { scope := Scope.builtins.set (Name.ofWord "f") f }
    ((invoke 20 "f" [f, .int 2]).on m).1 = .ok (.int 2) ∧
      ∃ start traced vs m₁, Task.Returns (.executeAll 19 countDown.body)
        { m with scope := start, calls := ["f"], traced } vs m₁ ∧ vs.getLast? = some (.int 2) := by
  intro f m
  have htwo : ((invoke 20 "f" [f, .int 2]).on m).1 = .ok (.int 2) := rfl
  refine ⟨htwo, ?_⟩
  have hcallee : (callee "f").on m = (.ok (some f), m) := on_callee rfl rfl
  rcases hon : (invoke 20 "f" [f, .int 2]).on m with ⟨e, m'⟩
  rw [hon] at htwo
  simp only at htwo
  subst htwo
  obtain ⟨start, traced, vs, m₁, -, hvs, hlast, -⟩ :=
    call_gives_last_return hcallee (by decide) (by decide) hon
  refine ⟨start, traced, vs, m₁, hvs, ?_⟩
  cases hvalue : vs.getLast? with
  | none =>
    rw [hvalue] at hlast
    cases hlast
  | some v =>
    rw [hvalue] at hlast
    exact congrArg some hlast.symm

end MiniAlgol
