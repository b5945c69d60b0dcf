import MiniAlgol.Proofs.Heap.Text
import MiniAlgol.Proofs.Run.Scopes
import MiniAlgol.Proofs.Run.Simulation
import MiniAlgol.Proofs.Value.Operators

/-!
# Simulations by primitive laws

Most simulations look at scopes value by value and care little for open calls and printed lines.
For them the laws of `Lawful` follow from fewer and smaller ones (`Primitive`): what related
machines have in common, the actions that look at the heap or change it, and the faults that the
trees allow.
-/

namespace MiniAlgol

open MiniAlgol.Action

/-! ## Faults that are about no value -/

theorem value?_of_ofLabel {name : Label} {f : Fault} (hf : Name.ofLabel name = .error f) :
    f.value? = none := by
  unfold Name.ofLabel at hf
  split at hf <;> cases hf
  rfl

theorem value?_of_wordsFrom {index : Nat} {labels : List Label} {f : Fault}
    (hf : wordsFrom index labels = .error f) : f.value? = none := by
  induction labels generalizing index with
  | nil => cases hf
  | cons label rest ih =>
    cases label with
    | str s =>
      rcases bind_error hf with hf | ⟨words, -, hf⟩
      · exact ih hf
      · cases hf
    | _ =>
      cases hf
      rfl

theorem value?_of_literalValue {text kind : Label} {f : Fault}
    (hf : literalValue text kind = .error f) : f.value? = none := by
  unfold literalValue at hf
  split at hf
  · rcases bind_error hf with hf | ⟨n, -, hf⟩
    · cases hn : text.toInteger with
      | ok n =>
        rw [hn] at hf
        cases hf
      | error e =>
        rw [hn] at hf
        cases hf
        rfl
    · cases hf
  · rcases bind_error hf with hf | ⟨n, -, hf⟩
    · cases hn : text.toReal with
      | ok n =>
        rw [hn] at hf
        cases hf
      | error e =>
        rw [hn] at hf
        cases hf
        rfl
    · cases hf
  · cases text <;> cases hf <;> rfl
  · cases hf
  · cases hf
    rfl

namespace Simulation

variable {S : Simulation} {w w' : S.World}

/-- Laws from which those of a simulation follow. -/
structure Primitive (S : Simulation) : Prop where
  expression_parts : ∀ {n}, S.expression n → ∀ e ∈ n.expressions, S.expression e
  statement_expressions : ∀ {n}, S.statement n → ∀ e ∈ n.expressions, S.expression e
  statement_parts : ∀ {n}, S.statement n → ∀ s ∈ n.statements, S.statement s
  routine_body : ∀ {r}, S.routine r → ∀ s ∈ r.body, S.statement s
  declared : ∀ {kind name params body}, S.statement (.routineDecl kind name params body) →
    S.routine ⟨name, params, body, kind.name⟩
  /-- Values with nothing to be told apart by are related to themselves. -/
  scalar : ∀ {w v}, v.isScalar → S.value w v v
  builtin : ∀ w b, S.value w (.builtin 0 b) (.builtin 0 b)
  callable : ∀ {w v v'}, S.value w v v' →
    (∃ i j r, v = .routine i r ∧ v' = .routine j r ∧ S.routine r) ∨
    (∃ i j b, v = .builtin i b ∧ v' = .builtin j b) ∨
    (v.isCallable = false ∧ v'.isCallable = false)
  hasTag : ∀ {w v v'} tag, S.value w v v' → v.hasTag tag = v'.hasTag tag
  bool : ∀ {w b v'}, S.value w (.bool b) v' → v' = .bool b
  /-- The faults that all trees allow. -/
  language : ∀ {w} {f : Fault}, f.kind?.isSome → f.value? = none → S.fault w f f
  notBoolean : ∀ {w construct actual shown v v'}, S.value w v v' →
    S.fault w (.notBoolean construct actual shown v) (.notBoolean construct actual shown v')
  notExpression : ∀ {w n}, S.expression n → n.isExpression = false →
    S.fault w (.notExpression n.kindName?) (.notExpression n.kindName?)
  notStatement : ∀ {w n}, S.statement n → n.isStatement = false →
    S.fault w (.notStatement n.kindName?) (.notStatement n.kindName?)
  literal : ∀ {w text kind f}, S.expression (.literal text kind) →
    literalValue text kind = .error f → S.fault w f f
  label : ∀ {w n name f}, S.expression n ∨ S.statement n → n.label? = some name →
    Name.ofLabel name = .error f → S.fault w f f
  params : ∀ {w r f}, S.routine r → r.params.mapM Name.ofLabel = .error f → S.fault w f f
  /-- Related scopes have related values, and come from related values. -/
  scope_values : ∀ {w s s'}, S.scope w s s' → Scope.Related (S.value w) s s'
  scope_set : ∀ {w s s' v v'} name, S.scope w s s' → S.value w v v' →
    S.scope w (s.set name v) (s'.set name v')
  scope_start : ∀ {w params args args' s s'}, S.values w args args' →
    Scope.ofArguments params args = .ok s → Scope.ofArguments params args' = .ok s' →
    S.scope w s s'
  /-- What related machines have in common. -/
  scope : ∀ {w m n}, S.machine w m n → S.scope w m.scope n.scope
  withScope : ∀ {w m n s s'}, S.machine w m n → S.scope w s s' →
    S.machine w { m with scope := s } { n with scope := s' }
  openCall : ∀ {w m n} name, S.machine w m n →
    S.machine w { m with calls := name :: m.calls } { n with calls := name :: n.calls }
  closeCall : ∀ {w m n}, S.machine w m n →
    S.machine w { m with calls := m.calls.tail } { n with calls := n.calls.tail }
  print : ∀ {w m n} line, S.machine w m n →
    S.machine w { m with printed := line :: m.printed } { n with printed := line :: n.printed }
  /-- The actions that look at the heap or change it. -/
  plainText : ∀ {w v v'}, S.value w v v' → S.Agrees w (plainText v) (plainText v') same
  typeName : ∀ {w v v'}, S.value w v v' → S.Agrees w (typeName v) (typeName v') same
  newId : ∀ {w}, S.Agrees w newId newId
    (fun w i j => ∀ r, S.routine r → S.value w (.routine i r) (.routine j r))
  operate : ∀ {w cls op left right a a' b b'}, S.expression (.binary cls op left right) →
    S.value w a a' → S.value w b b' → S.Agrees w (operate op a b) (operate op a' b') S.value
  readElement : ∀ {w name indices t t' is is'}, S.expression (.arrayAccess name indices) →
    S.value w t t' → S.values w is is' → is.length = indices.length →
    S.Agrees w (readElement name t is) (readElement name t' is') S.value
  allocateArray : ∀ {w name elem extents init}, S.statement (.arrayDecl name elem extents init) →
    S.Agrees w (allocateArray elem extents) (allocateArray elem extents)
      (fun w a a' => S.value w (.array a) (.array a'))
  checkRoom : ∀ {w name a a' count}, S.value w (.array a) (.array a') →
    S.Agrees w (checkRoom name a count) (checkRoom name a' count) (fun w _ _ => S.room w a a' count)
  fill : ∀ {w name a a' count v v'} {index : Nat}, S.value w (.array a) (.array a') →
    S.room w a a' count → (index : Int) < count → S.value w v v' →
    S.Agrees w (changeHeap fun heap => Heap.fill heap name a index v)
      (changeHeap fun heap => Heap.fill heap name a' index v') any
  write : ∀ {w name indices value t t' is is' v v'}, S.statement (.indexAssign name indices value) →
    S.value w t t' → S.values w is is' → is.length = indices.length → S.value w v v' →
    S.Agrees w (changeHeap fun heap => Heap.write heap name t is v)
      (changeHeap fun heap => Heap.write heap name t' is' v') any
  record : ∀ {w level event event'}, S.Tells w level event event' →
    S.Agrees w (record level event) (record level event') any

/-! ## Recorded events -/

namespace Tells

variable {level : Int} {event event' : Heap → Except Fault Event}

theorem pos (ht : S.Tells w level event event') : 0 < level := by
  cases ht <;> decide

/-- Equal values are told alike. -/
theorem eq (ht : S.Tells w level event event') (hvalue : ∀ v v', S.value w v v' → v = v') :
    event = event' := by
  have hvalues : ∀ {vs vs'}, S.values w vs vs' → vs = vs' := fun hvs =>
    List.forall₂_eq_eq_eq ▸ hvs.imp hvalue
  cases ht with
  | load his hv | store his hv => rw [hvalues his, hvalue _ _ hv]
  | declare hv | assign hv | «return» hv => rw [hvalue _ _ hv]
  | call hargs => rw [hvalues hargs]
  | ifCondition | whileCondition | declareArray | define => rfl

/-- The event is of the level that it is recorded at. -/
theorem level_eq (ht : S.Tells w level event event') {h : Heap} {e : Event}
    (he : event h = .ok e) : e.level = level := by
  cases ht with
  | load | store =>
    obtain ⟨shown, -, he⟩ := bind_ok he
    obtain ⟨text, -, he⟩ := bind_ok he
    cases he
    rfl
  | ifCondition | whileCondition =>
    cases he
    rfl
  | declare | assign | «return» | call | declareArray | define =>
    obtain ⟨text, -, he⟩ := bind_ok he
    cases he
    rfl

/-- An event fails only on an integer that is too long, or on a parameter that is no word. -/
theorem error (ht : S.Tells w level event event') {h : Heap} {f : Fault}
    (he : event h = .error f) : f = .numeral .tooLongToWrite ∨
      ∃ kind name params body, S.statement (.routineDecl kind name params body) ∧
        wordsFrom 0 params = .error f := by
  cases ht with
  | load | store =>
    rcases bind_error he with he | ⟨shown, -, he⟩
    · exact .inl (Value.listings_error he)
    · rcases bind_error he with he | ⟨text, -, he⟩
      · exact .inl (Value.listing_error he)
      · cases he
  | declare | assign | «return» =>
    rcases bind_error he with he | ⟨text, -, he⟩
    · exact .inl (Value.listing_error he)
    · cases he
  | ifCondition | whileCondition => cases he
  | call =>
    rcases bind_error he with he | ⟨texts, -, he⟩
    · obtain ⟨v, -, hv⟩ := exists_of_mapM_error he
      exact .inl (Value.listing_error hv)
    · cases he
  | declareArray =>
    rcases bind_error he with he | ⟨texts, -, he⟩
    · obtain ⟨n, -, hn⟩ := exists_of_mapM_error he
      exact .inl (Value.integerText_error hn)
    · cases he
  | define hs =>
    rcases bind_error he with he | ⟨words, -, he⟩
    · exact .inr ⟨_, _, _, _, hs, he⟩
    · cases he

end Tells

/-! ## The laws of a simulation from the primitive ones -/

theorem agrees_modify {f g : Machine → Machine}
    (h : ∀ {w' m n}, S.later w w' → S.machine w' m n → S.machine w' (f m) (g n)) :
    S.Agrees w (modify f) (modify g) any :=
  fun w' _ _ hw hm => .ok (S.later_refl w') (h hw hm) trivial

/-- One result in both runs, where its faults are related to themselves. -/
theorem agrees_lift {α : Type} {r : Except Fault α} {P : S.World → α → α → Prop}
    (hok : ∀ w' a, S.later w w' → r = .ok a → P w' a a)
    (hfault : ∀ w' f, r = .error f → S.fault w' f f) : S.Agrees w (lift r) (lift r) P := by
  intro w' m n hw hm
  cases r with
  | ok a => exact .ok (S.later_refl w') hm (hok w' a hw rfl)
  | error f => exact .error (S.later_refl w') hm (hfault w' f rfl)

theorem literalValue_ok {text kind : Label} {v : Value} (hv : literalValue text kind = .ok v) :
    v.isScalar := by
  unfold literalValue at hv
  split at hv
  · obtain ⟨n, -, hv⟩ := bind_ok hv
    cases hv
    rfl
  · obtain ⟨x, -, hv⟩ := bind_ok hv
    cases hv
    rfl
  · cases text with
    | str s =>
      cases hv
      rfl
    | arr items =>
      cases hv
      rfl
    | _ => cases hv
  · cases hv
    rfl
  · cases hv

namespace Primitive

variable {name : Label} {v v' : Value} {args args' : List Value}

theorem lookUp (Q : S.Primitive) (hname : ∀ w f, Name.ofLabel name = .error f → S.fault w f f) :
    S.Agrees w (lookUp name) (lookUp name) S.value := by
  intro w' m n hw hm
  simp only [Action.lookUp, on_bind, on_get, Scope.get]
  cases hkey : Name.ofLabel name with
  | error f => exact .error (S.later_refl w') hm (hname w' f hkey)
  | ok key =>
    have hrel := Q.scope_values (Q.scope hm) key.key
    simp only [Bind.bind, Except.bind]
    generalize m.scope.get? key.key = l at hrel ⊢
    generalize n.scope.get? key.key = r at hrel ⊢
    cases hrel with
    | none => exact .error (S.later_refl w') hm (Q.language rfl rfl)
    | some hv => exact .ok (S.later_refl w') hm hv

theorem callee (Q : S.Primitive) (hname : ∀ w f, Name.ofLabel name = .error f → S.fault w f f) :
    S.Agrees w (callee name) (callee name) S.optionalValue := by
  refine Agrees.bind (agrees_lift (P := same) (fun _ _ _ _ => rfl) hname) ?_
  rintro w₁ key _ hw₁ rfl w₂ m n hw₂ hm
  rw [on_bind, on_bind, on_get, on_get]
  refine .ok (S.later_refl w₂) hm ?_
  exact (Q.scope_values (Q.scope hm)).orElse_builtins (Q.builtin w₂) key.key

theorem bind (Q : S.Primitive) (hname : ∀ w f, Name.ofLabel name = .error f → S.fault w f f)
    (hv : S.value w v v') :
    S.Agrees w (Action.bind name v) (Action.bind name v') any := by
  refine Agrees.bind (agrees_lift (P := same) (fun _ _ _ _ => rfl) hname) ?_
  rintro w₁ key _ hw₁ rfl
  refine agrees_modify fun hw₂ hm => Q.withScope hm ?_
  exact Q.scope_set key (Q.scope hm) (S.value_later (S.later_trans hw₁ hw₂) hv)

theorem declareRoutine (Q : S.Primitive) {r : Routine}
    (hname : ∀ w f, Name.ofLabel name = .error f → S.fault w f f) (hr : S.routine r) :
    S.Agrees w (declareRoutine name r) (declareRoutine name r) any :=
  Agrees.bind Q.newId fun _ _ _ _ hid => Q.bind hname (hid r hr)

/-- A value that is no condition is recorded after a pass if it has a text, and then refused. -/
theorem passTest_other (hv : v.hasTag .bool = false) :
    passTest v = (do
      let shown ← Action.plainText v
      Action.record 3 fun _ => return .whileCondition shown
      refuseCondition "while" shown v) := by
  funext m
  show (passTest v).on m = Action.on _ m
  unfold MiniAlgol.passTest
  rw [on_bind, on_record]
  simp only [Action.plainText, on_bind, on_get]
  -- the text that cannot be recorded is the one that the refusal cannot show
  cases htext : v.plainText m.heap with
  | error f =>
    by_cases hlevel : 3 ≤ m.level
    · rw [if_pos hlevel]
      rfl
    · rw [if_neg hlevel]
      simp only [on_requireBool_other hv, htext]
      rfl
  | ok shown =>
    simp only [on_lift_ok]
    rw [on_record]
    by_cases hlevel : 3 ≤ m.level
    · rw [if_pos hlevel, if_pos hlevel]
      obtain ⟨traced, hnote⟩ := exists_note m (.whileCondition shown)
      show (requireBool "while" v).on (m.note (.whileCondition shown))
        = (refuseCondition "while" shown v).on (m.note (.whileCondition shown))
      rw [on_requireBool_other hv, hnote]
      simp only [htext]
    · rw [if_neg hlevel, if_neg hlevel]
      simp only [on_requireBool_other hv, htext]

theorem refuseCondition_agrees (Q : S.Primitive) {construct shown : String} (hv : S.value w v v')
    {P : S.World → Bool → Bool → Prop} :
    S.Agrees w (refuseCondition construct shown v) (refuseCondition construct shown v') P := by
  refine Agrees.bind (Q.typeName hv) ?_
  rintro w₁ actual _ hw₁ rfl
  exact Agrees.fail fun w₂ hw₂ => Q.notBoolean (S.value_later (S.later_trans hw₁ hw₂) hv)

theorem requireBool (Q : S.Primitive) {construct : String} (hv : S.value w v v') :
    S.Agrees w (requireBool construct v) (requireBool construct v')
      (fun _ b b' => b = b' ∧ v = .bool b ∧ v' = .bool b) := by
  cases htag : v.hasTag .bool with
  | true =>
    cases v with
    | bool b =>
      have hv' := Q.bool hv
      subst hv'
      exact Agrees.pure fun _ _ => ⟨rfl, rfl, rfl⟩
    | _ => cases htag
  | false =>
    rw [requireBool_other htag, requireBool_other ((Q.hasTag .bool hv).symm.trans htag)]
    refine Agrees.bind (Q.plainText hv) ?_
    rintro w₁ shown _ hw₁ rfl
    exact Q.refuseCondition_agrees (S.value_later hw₁ hv)

theorem passTest (Q : S.Primitive) (hv : S.value w v v') :
    S.Agrees w (passTest v) (passTest v') same := by
  cases htag : v.hasTag .bool with
  | true =>
    cases v with
    | bool b =>
      rw [Q.bool hv, MiniAlgol.passTest, plainText_bool]
      exact Agrees.bind (Q.record (.whileCondition _)) fun _ _ _ _ _ => Agrees.pure fun _ _ => rfl
    | _ => cases htag
  | false =>
    rw [passTest_other htag, passTest_other ((Q.hasTag .bool hv).symm.trans htag)]
    refine Agrees.bind (Q.plainText hv) ?_
    rintro w₁ shown _ hw₁ rfl
    refine Agrees.bind (Q.record (.whileCondition shown)) ?_
    intro w₂ _ _ hw₂ _
    exact Q.refuseCondition_agrees (S.value_later (S.later_trans hw₁ hw₂) hv)

theorem checkInitial (Q : S.Primitive) {tag : Tag} (hv : S.value w v v') :
    S.Agrees w (checkInitial tag name v) (checkInitial tag name v') any := by
  unfold MiniAlgol.checkInitial
  rw [← Q.hasTag tag hv]
  split
  · exact Agrees.pure fun _ _ => trivial
  · refine Agrees.bind (Q.typeName hv) ?_
    rintro w₁ actual _ hw₁ rfl
    refine Agrees.bind (Q.plainText (S.value_later hw₁ hv)) ?_
    rintro w₂ shown _ hw₂ rfl
    exact Agrees.fail fun _ _ => Q.language rfl rfl

theorem printValues (Q : S.Primitive) (hargs : S.values w args args') :
    S.Agrees w (printValues args) (printValues args') any := by
  induction args generalizing w args' with
  | nil =>
    cases hargs
    exact Agrees.pure fun _ _ => trivial
  | cons v rest ih =>
    cases hargs with
    | cons hv hrest =>
      refine Agrees.bind (Q.plainText hv) ?_
      rintro w₁ line _ hw₁ rfl
      refine Agrees.bind (agrees_modify fun _ hm => Q.print line hm) ?_
      intro w₂ _ _ hw₂ _
      exact ih (values_later (S.later_trans hw₁ hw₂) hrest)

theorem callBuiltin (Q : S.Primitive) {b : Builtin} (hargs : S.values w args args') :
    S.Agrees w (callBuiltin b name args) (callBuiltin b name args') S.value := by
  have hlen : args'.length = args.length := hargs.length_eq.symm
  have hundefined : ∀ {w : S.World},
      S.Agrees w (pure .undefined : Action Value) (pure .undefined) S.value :=
    Agrees.pure fun _ _ => Q.scalar rfl
  unfold MiniAlgol.callBuiltin
  rw [hlen]
  split
  · split
    · exact Agrees.bind (Q.printValues hargs) fun _ _ _ _ _ => hundefined
    · exact Agrees.fail fun _ _ => Q.language rfl rfl
  · exact Agrees.bind (Q.printValues hargs) fun _ _ _ _ _ => hundefined

/-- A body runs on a scope of its own, and the scopes around it are as they were, with values that
are still related. -/
theorem inCall (Q : S.Primitive) {start start' : Scope} {x y : Action Unit}
    (hstart : S.scope w start start') (hxy : S.Agrees w x y any) :
    S.Agrees w (inCall start x) (inCall start' y)
      (fun w p q => S.scope w p.2 q.2) := by
  intro w₁ m n hw₁ hm
  have hinner := Q.withScope hm (S.scope_later hw₁ hstart)
  have hends := hxy w₁ _ _ hw₁ hinner
  rw [on_inCall, on_inCall]
  generalize x.on { m with scope := start } = l at hends
  generalize y.on { n with scope := start' } = r at hends
  cases hends with
  | exempt hs => exact .exempt hs
  | ok hw₂ hm₂ _ =>
    refine .ok hw₂ ?_ (Q.scope hm₂)
    exact Q.closeCall (Q.withScope hm₂ (S.scope_later hw₂ (Q.scope hm)))
  | error hw₂ hm₂ hs =>
    refine .error hw₂ ?_ hs
    exact Q.closeCall (Q.withScope hm₂ (S.scope_later hw₂ (Q.scope hm)))

theorem finishCall (Q : S.Primitive) {r : Routine} {start start' : Scope} {x y : Action Unit}
    (hargs : S.values w args args') (hstart : S.scope w start start') (hxy : S.Agrees w x y any) :
    S.Agrees w (finishCall r args start x) (finishCall r args' start' y) S.value := by
  refine Agrees.bind (Q.record (.call hargs)) ?_
  intro w₁ _ _ hw₁ _
  refine Agrees.bind (Q.inCall (S.scope_later hw₁ hstart) (hxy.later hw₁)) ?_
  rintro w₂ ⟨_, scope⟩ ⟨_, scope'⟩ hw₂ hscope
  -- a body that sets no result gives the undefined value in both runs
  have hresult : S.value w₂ ((scope.get? (.word Scope.resultWord)).getD .undefined)
      ((scope'.get? (.word Scope.resultWord)).getD .undefined) := by
    have hkey := Q.scope_values hscope (.word Scope.resultWord)
    simp only at hkey
    generalize scope.get? (.word Scope.resultWord) = l at hkey ⊢
    generalize scope'.get? (.word Scope.resultWord) = r at hkey ⊢
    cases hkey with
    | none => exact Q.scalar rfl
    | some hv => exact hv
  refine Agrees.bind (Q.record (.return hresult)) ?_
  intro w₃ _ _ hw₃ _
  exact Agrees.pure fun w₄ hw₄ => S.value_later (S.later_trans hw₃ hw₄) hresult

theorem activate (Q : S.Primitive) {r : Routine} {x y : Action Unit} (hr : S.routine r)
    (hargs : S.values w args args') (hxy : S.Agrees w x y any) :
    S.Agrees w (activate r args x) (activate r args' y) S.value := by
  unfold MiniAlgol.activate
  obtain ⟨f, hparams, hf, hf'⟩ | ⟨start, start', hs, hs', -⟩ :=
    Scope.ofArguments_related r.params hargs
  · rw [hf, hf']
    refine Agrees.bind (Agrees.fail (P := fun _ _ _ => False) fun _ _ => Q.params hr hparams) ?_
    exact fun _ _ _ _ h => h.elim
  · have hrel := Q.scope_start hargs hs hs'
    rw [hs, hs']
    refine Agrees.bind (Agrees.pure (P := S.scope) fun w₁ hw₁ => S.scope_later hw₁ hrel) ?_
    intro w₁ start start' hw₁ hstart
    refine Agrees.bind (agrees_modify fun _ hm => Q.openCall r.name hm) ?_
    intro w₂ _ _ hw₂ _
    have hw := S.later_trans hw₁ hw₂
    exact Q.finishCall (values_later hw hargs) (S.scope_later hw₂ hstart) (hxy.later hw)

/-- A simulation with the primitive laws is lawful. -/
theorem lawful (Q : S.Primitive) : S.Lawful where
  expression_parts := Q.expression_parts
  statement_expressions := Q.statement_expressions
  statement_parts := Q.statement_parts
  routine_body := Q.routine_body
  undefined _ := Q.scalar rfl
  callable := Q.callable
  notExpression := Q.notExpression
  notStatement := Q.notStatement
  notDeclared _ _ := Q.language rfl rfl
  notCallable _ _ _ := Q.language rfl rfl
  arity _ _ _ _ _ := Q.language rfl rfl
  literal hn := agrees_lift (fun _ _ _ hv => Q.scalar (literalValue_ok hv)) fun _ _ => Q.literal hn
  lookUp hn hname := Q.lookUp fun _ _ => Q.label hn hname
  operate := Q.operate
  readElement := Q.readElement
  typeName := Q.typeName
  requireBool := Q.requireBool
  passTest := Q.passTest
  checkInitial := Q.checkInitial
  bind hn hname := Q.bind fun _ _ => Q.label (.inr hn) hname
  bindResult := Q.bind fun _ _ hf => by cases hf
  allocateArray := Q.allocateArray
  checkRoom := Q.checkRoom
  fill := Q.fill
  write := Q.write
  declareRoutine hn := Q.declareRoutine (fun _ _ => Q.label (.inr hn) rfl) (Q.declared hn)
  record := Q.record
  callee hn := Q.callee fun _ _ => Q.label (.inl hn) rfl
  callBuiltin := Q.callBuiltin
  activate hr hargs _ hxy := Q.activate hr hargs hxy

end Primitive

end Simulation

end MiniAlgol
