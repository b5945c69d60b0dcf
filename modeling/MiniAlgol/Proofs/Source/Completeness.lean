import MiniAlgol.Proofs.Source.Grammar
import MiniAlgol.Proofs.Source.Reading

/-!
# The parser takes what the grammar describes

Every sequence of tokens that the grammar derives is read to its end, and the parser then has the
tree of the derivation (`Derives.reads`). For expressions the induction is on `Phrase`, with the
place of the operand as a `Hole` (`Phrase.readable`), for statements on `Clause`
(`Clause.takes`). What is said of a state is how it takes the tokens that may come next.
-/

namespace MiniAlgol.Source

/-- The state takes the token, which leads to `r`. -/
def Step (q : Parser) (t : Token) (r : Parser) : Prop :=
  q.focus.accepts t.terminal ∧ q.feed t = some r

theorem Step.reads {q r : Parser} {t : Token} (h : Step q t r) : Reads q [t] r :=
  .single h.1 h.2

theorem Step.cons {q r p : Parser} {t : Token} {ts : List Token} (h : Step q t r)
    (hts : Reads r ts p) : Reads q (t :: ts) p :=
  .cons h.1 h.2 hts

/-! ## After an expression -/

/-- Whether an operator of the class may follow an expression of the level. -/
def Level.yields : Level → BinaryClass → Bool
  | .primary, _ => true
  | .of .multiplicative, _ => true
  | .of .additive, cls => cls != .multiplicative
  | .of .comparison, cls => cls == .comparison

/-- No operator waits that binds as strongly as the operators of the level. -/
def Level.Clear : Level → Pending → Prop
  | .primary, _ => True
  | .of .multiplicative, p => p.multiplicative = none
  | .of .additive, p => p.additive = none ∧ p.multiplicative = none
  | .of .comparison, p => p.comparison = none ∧ p.additive = none ∧ p.multiplicative = none

/-- The state takes what may follow the expression `e` of the level at the place `h`. -/
def Ends (l : Level) (q p : Parser) (h : Hole) (e : Node) : Prop :=
  ∀ t r, (∀ cls, operatorClass? t.terminal = some cls → l.yields cls) →
    p.feedAfterOperand e h t = some r → Step q t r

variable {c : Category} {cls : BinaryClass} {l : Level} {p q r s : Parser} {h : Hole} {t : Token}
  {u : Terminal} {x e : Node} {name : String} {ts : List Token}

theorem Ends.step (hends : Ends l q p h e) (ht : operatorClass? t.terminal = none)
    (hfeed : p.feedClose h (h.pending.close e) t.terminal = some r) : Step q t r := by
  refine hends t r (fun cls hcls => ?_) ?_
  · rw [ht] at hcls
    cases hcls
  · rw [Parser.feedAfterOperand, ht]
    exact hfeed

theorem followsOperand_of_operatorClass (hcls : operatorClass? u = some cls) :
    followsOperand u := by
  cases u <;> first | rfl | cases hcls

theorem followsOperand_of_feedUse {use : Use} (hfeed : p.feedUse use e u = some r) :
    followsOperand u := by
  unfold Parser.feedUse at hfeed
  split at hfeed <;> first | rfl | cases hfeed

theorem followsOperand_of_feedClose (hfeed : p.feedClose h e u = some r) : followsOperand u := by
  unfold Parser.feedClose at hfeed
  split at hfeed
  · exact followsOperand_of_feedUse hfeed
  · simp only at hfeed
    split at hfeed <;> first | rfl | cases hfeed

theorem followsOperand_of_feedAfterOperand (hfeed : p.feedAfterOperand x h t = some r) :
    followsOperand t.terminal := by
  unfold Parser.feedAfterOperand at hfeed
  split at hfeed
  · next cls hcls => exact followsOperand_of_operatorClass hcls
  · exact followsOperand_of_feedClose hfeed

/-- After an expression that is a whole statement so far. -/
theorem effect_of_feedAfterOperand (hfeed : p.feedAfterOperand x (Hole.start .effect) t = some r) :
    (operatorClass? t.terminal).isSome ∨ t.terminal = .semicolon := by
  unfold Parser.feedAfterOperand at hfeed
  split at hfeed
  · next cls hcls =>
    rw [hcls]
    exact .inl rfl
  · right
    unfold Parser.feedClose Parser.feedUse Hole.start at hfeed
    simp only at hfeed
    split at hfeed <;> simp_all

theorem ends_afterOperand : Ends .primary (p.focusOn (.afterOperand x h)) p h x :=
  fun _ _ _ hfeed => ⟨followsOperand_of_feedAfterOperand hfeed, hfeed⟩

theorem ends_operandName :
    Ends .primary (p.focusOn (.operandName name h)) p h (.ident name) := by
  intro t r _ hfeed
  have hfollows := followsOperand_of_feedAfterOperand hfeed
  refine ⟨?_, ?_⟩
  · simp [Parser.focusOn, Focus.accepts, hfollows]
  · simp only [Parser.feed, Parser.focusOn]
    -- the brackets of a call or an index follow no operand
    split
    · next ht => rw [ht] at hfollows; cases hfollows
    · next ht => rw [ht] at hfollows; cases hfollows
    · exact hfeed

theorem ends_statementName :
    Ends .primary (p.focusOn (.statementName name)) p (Hole.start .effect) (.ident name) := by
  intro t r _ hfeed
  have hfollows := followsOperand_of_feedAfterOperand hfeed
  refine ⟨?_, ?_⟩
  · rcases effect_of_feedAfterOperand hfeed with ht | ht <;>
      simp [Parser.focusOn, Focus.accepts, ht]
  · simp only [Parser.feed, Parser.focusOn]
    split
    · next ht => rw [ht] at hfollows; cases hfollows
    · next ht => rw [ht] at hfollows; cases hfollows
    · next ht => rw [ht] at hfollows; cases hfollows
    · exact hfeed

theorem ends_statementElement {indices : List Node} :
    Ends .primary (p.focusOn (.statementElement name indices)) p (Hole.start .effect)
      (.arrayAccess name indices) := by
  intro t r _ hfeed
  have hfollows := followsOperand_of_feedAfterOperand hfeed
  refine ⟨?_, ?_⟩
  · rcases effect_of_feedAfterOperand hfeed with ht | ht <;>
      simp [Parser.focusOn, Focus.accepts, ht]
  · simp only [Parser.feed, Parser.focusOn]
    split
    · next ht => rw [ht] at hfollows; cases hfollows
    · exact hfeed

/-! ## Operators

An operation that is complete stands for its right operand behind the operator. -/

theorem Level.Clear.operand {pending : Pending} (hclear : (Level.of cls).Clear pending) :
    (operandLevel cls).Clear pending := by
  cases cls with
  | comparison => exact hclear.2
  | additive => exact hclear.2
  | multiplicative => trivial

theorem Ends.operand (hends : Ends (operandLevel cls) q p h e) : Ends (.of cls) q p h e := by
  intro t r ht hfeed
  refine hends t r (fun cls' hcls' => ?_) hfeed
  have hyields := ht cls' hcls'
  cases cls <;> cases cls' <;> first | rfl | cases hyields

theorem clear_push {pending : Pending} {op : String} :
    (operandLevel cls).Clear (pending.push cls op x) := by
  cases cls with
  | comparison => exact ⟨rfl, rfl⟩
  | additive => rfl
  | multiplicative => trivial

theorem push_close {pending : Pending} {op : String} {y : Node}
    (hclear : (Level.of cls).Clear pending) :
    (pending.push cls op x).close y = pending.close (.binary cls op x y) := by
  obtain ⟨comparison, additive, multiplicative⟩ := pending
  cases cls <;> simp_all [Level.Clear, Pending.push, Pending.close, Pending.closeSum,
    Pending.closeProduct, join]

theorem push_push {pending : Pending} {cls' : BinaryClass} {op op' : String} {y : Node}
    (hclear : (Level.of cls).Clear pending) (hyields : (Level.of cls).yields cls') :
    (pending.push cls op x).push cls' op' y = pending.push cls' op' (.binary cls op x y) := by
  obtain ⟨comparison, additive, multiplicative⟩ := pending
  -- an operator that binds no stronger completes the operation before it
  cases cls <;> cases cls' <;> simp_all [Level.Clear, Level.yields, Pending.push, Pending.close,
    Pending.closeSum, Pending.closeProduct, join]

theorem Ends.binary {op : String} {y : Node} (hclear : (Level.of cls).Clear h.pending)
    (hends : Ends (operandLevel cls) q p (h.afterOperator cls op x) y) :
    Ends (.of cls) q p h (.binary cls op x y) := by
  intro t r ht hfeed
  refine hends.operand t r ht ?_
  unfold Parser.feedAfterOperand at hfeed ⊢
  split
  · next cls' hcls' =>
    rw [hcls'] at hfeed
    simp only [Hole.afterOperator] at hfeed ⊢
    rw [push_push hclear (ht cls' hcls')]
    exact hfeed
  · next hnone =>
    rw [hnone] at hfeed
    simp only [Hole.afterOperator] at hfeed ⊢
    rw [push_close hclear]
    exact hfeed

/-! ## Lists in brackets -/

/-- A bracket that takes at most `full` expressions. They are read at the places `place done`,
where the finished ones are in reverse, and lead to `final`. -/
structure Listing (p : Parser) (place : List Node → Hole) (closer : Terminal)
    (final : List Node → Focus) (full : Nat) : Prop where
  pending : ∀ done, (place done).pending = {}
  notOperator : operatorClass? closer = none
  more : ∀ done e, done.length + 1 < full →
    p.feedClose (place done) e .comma = some (p.focusOn (.operand (place (e :: done))))
  last : ∀ done e, done.length < full →
    p.feedClose (place done) e closer = some (p.focusOn (final (e :: done).reverse))

theorem listing_arguments (full : Nat) :
    Listing p (fun done => h.enter (.arguments name done)) .rightParen
      (fun args => .afterOperand (.call name args) h) full where
  pending _ := rfl
  notOperator := rfl
  more _ _ _ := rfl
  last _ _ _ := rfl

theorem listing_elements {elem : Tag} {extents : List Int} (full : Nat) :
    Listing p (fun done => Hole.start (.element name elem extents done)) .rightSquare
      (fun init => .arrayFilled ⟨name, elem, extents⟩ init) full where
  pending _ := rfl
  notOperator := rfl
  more _ _ _ := rfl
  last _ _ _ := rfl

/-- Square brackets know the first index only, as there are at most two. -/
theorem listing_square (place : Option Node → Hole) (final : List Node → Focus)
    (hpending : ∀ first, (place first).pending = {})
    (hmore : ∀ e, p.feedClose (place none) e .comma
      = some (p.focusOn (.operand (place (some e)))))
    (hone : ∀ e, p.feedClose (place none) e .rightSquare = some (p.focusOn (final [e])))
    (htwo : ∀ first e, p.feedClose (place (some first)) e .rightSquare
      = some (p.focusOn (final [first, e]))) :
    Listing p (fun done => place done.head?) .rightSquare final 2 where
  pending done := hpending done.head?
  notOperator := rfl
  more done e hlt := by
    obtain rfl : done = [] := List.length_eq_zero_iff.1 (by omega)
    exact hmore e
  last done e hlt := by
    match done, hlt with
    | [], _ => exact hone e
    | [first], _ => exact htwo first e

theorem listing_indices :
    Listing p (fun done => h.enter (.indices name done.head?)) .rightSquare
      (fun indices => .afterOperand (.arrayAccess name indices) h) 2 :=
  listing_square (fun first => h.enter (.indices name first)) _ (fun _ => rfl) (fun _ => rfl)
    (fun _ => rfl) fun _ _ => rfl

theorem listing_targets (p : Parser) (name : String) :
    Listing p (fun done => Hole.start (.targetIndex name done.head?)) .rightSquare
      (fun indices => .statementElement name indices) 2 :=
  listing_square (fun first => Hole.start (.targetIndex name first)) _ (fun _ => rfl)
    (fun _ => rfl) (fun _ => rfl) fun _ _ => rfl

/-! ## Before an expression -/

/-- After a name at the place `h`. -/
structure Named (q p : Parser) (h : Hole) (name : String) : Prop where
  ends : Ends .primary q p h (.ident name)
  call : Step q (sign .leftParen) (p.focusOn (.argumentsOpen name h))
  access : ∃ place final, Listing p place .rightSquare final 2 ∧
    Step q (sign .leftSquare) (p.focusOn (.operand (place []))) ∧
    ∀ indices, Ends .primary (p.focusOn (final indices)) p h (.arrayAccess name indices)

theorem named_operandName : Named (p.focusOn (.operandName name h)) p h name where
  ends := ends_operandName
  call := ⟨rfl, rfl⟩
  access := ⟨_, _, listing_indices, ⟨rfl, rfl⟩, fun _ => ends_afterOperand⟩

theorem named_statementName :
    Named (p.focusOn (.statementName name)) p (Hole.start .effect) name where
  ends := ends_statementName
  call := ⟨rfl, rfl⟩
  access := ⟨_, _, listing_targets p name, ⟨rfl, rfl⟩, fun _ => ends_statementElement⟩

/-- The state takes the first token of an operand at the place `h`. -/
structure Starts (s p : Parser) (h : Hole) : Prop where
  operand : ∀ {t r}, t.terminal ≠ .ident → p.feedOperand h t = some r → Step s t r
  name : ∀ {t}, t.terminal = .ident → ∃ q, Step s t q ∧ Named q p h (label t)

theorem startsExpression_of_feedOperand (hfeed : p.feedOperand h t = some r) :
    startsExpression t.terminal := by
  unfold Parser.feedOperand at hfeed
  split at hfeed
  · next x hx =>
    unfold literal? at hx
    simp only at hx
    split at hx <;> simp_all [startsExpression]
  · split at hfeed <;> simp_all [startsExpression]

theorem feedOperand_ident (ht : t.terminal = .ident) :
    p.feedOperand h t = some (p.focusOn (.operandName (label t) h)) := by
  unfold Parser.feedOperand
  rw [literal?_ident ht]
  simp only
  rw [ht]
  rfl

/-- A state that takes the first tokens of operands as they come. -/
theorem starts_of_feed (hstep : ∀ t r, p.feedOperand h t = some r → Step s t r) :
    Starts s p h where
  operand _ hfeed := hstep _ _ hfeed
  name ht := ⟨_, hstep _ _ (feedOperand_ident ht), named_operandName⟩

theorem starts_operand : Starts (p.focusOn (.operand h)) p h :=
  starts_of_feed fun _ _ hfeed => ⟨startsExpression_of_feedOperand hfeed, hfeed⟩

theorem starts_argumentsOpen :
    Starts (p.focusOn (.argumentsOpen name h)) p (h.enter (.arguments name [])) := by
  refine starts_of_feed fun t r hfeed => ?_
  have hstarts := startsExpression_of_feedOperand hfeed
  refine ⟨?_, ?_⟩
  · simp [Parser.focusOn, Focus.accepts, hstarts]
  · simp only [Parser.feed, Parser.focusOn]
    split
    · next ht => rw [ht] at hstarts; cases hstarts
    · exact hfeed

theorem starts_arrayOpen {header : ArrayHeader} :
    Starts (p.focusOn (.arrayOpen header)) p
      (Hole.start (.element header.name header.elem header.extents [])) := by
  refine starts_of_feed fun t r hfeed => ?_
  have hstarts := startsExpression_of_feedOperand hfeed
  refine ⟨?_, ?_⟩
  · simp [Parser.focusOn, Focus.accepts, hstarts]
  · simp only [Parser.feed, Parser.focusOn]
    split
    · next ht => rw [ht] at hstarts; cases hstarts
    · exact hfeed

/-! ## Expressions -/

/-- The tokens are read wherever an expression of the level may stand. -/
def Readable (l : Level) (ts : List Token) (e : Node) : Prop :=
  ∀ s p h, Starts s p h → l.Clear h.pending → ∃ q, Reads s ts q ∧ Ends l q p h e

theorem close_of_pending (hpending : h.pending = {}) : h.pending.close e = e := by
  rw [hpending]
  rfl

/-- A whole expression and the token after it. -/
theorem Readable.whole (he : Readable .whole ts e) (hs : Starts s p h) (hpending : h.pending = {})
    (ht : operatorClass? t.terminal = none) (hfeed : p.feedClose h e t.terminal = some r) :
    Reads s (ts ++ [t]) r := by
  have hclear : Level.whole.Clear h.pending := by
    rw [hpending]
    exact ⟨rfl, rfl, rfl⟩
  obtain ⟨q, hreads, hends⟩ := he s p h hs hclear
  refine hreads.append (hends.step ht ?_).reads
  rw [close_of_pending hpending]
  exact hfeed

/-- At least one expression, and the bracket that closes the list. -/
theorem Listing.reads {place : List Node → Hole} {closer : Terminal} {final : List Node → Focus}
    {full : Nat} (hlist : Listing p place closer final full) (parts : List (List Token × Node))
    (hparts : ∀ a ∈ parts, Readable .whole a.1 a.2) (hne : parts ≠ []) (done : List Node)
    (hs : Starts s p (place done)) (hfull : done.length + parts.length ≤ full) :
    Reads s (separated (parts.map Prod.fst) ++ [sign closer])
      (p.focusOn (final (done.reverse ++ parts.map Prod.snd))) := by
  -- on the expressions still to come; those before are part of the place
  induction parts generalizing s done with
  | nil => exact absurd rfl hne
  | cons part parts ih =>
    rw [List.forall_mem_cons] at hparts
    cases parts with
    | nil =>
      have hlast := hlist.last done part.2 hfull
      have := hparts.1.whole (t := sign closer) hs (hlist.pending done) hlist.notOperator hlast
      simpa [separated] using this
    | cons next parts =>
      simp only [List.length_cons] at hfull
      have hmore := hlist.more done part.2 (by omega)
      have hfirst := hparts.1.whole (t := sign .comma) hs (hlist.pending done) rfl hmore
      have hrest := ih hparts.2 (by simp) (part.2 :: done) starts_operand (by simp; omega)
      have := hfirst.append hrest
      simpa [separated, List.intercalate] using this

/-- Every expression of the grammar is read. -/
theorem Phrase.readable (hphrase : Phrase l ts e) : Readable l ts e := by
  induction hphrase with
  | @literal t x hx =>
    intro s p h hs _
    have hident := (exists_of_literal? hx).1
    have hfeed : p.feedOperand h t = some (p.focusOn (.afterOperand x h)) := by
      rw [Parser.feedOperand, hx]
    exact ⟨_, (hs.operand hident hfeed).reads, ends_afterOperand⟩
  | ident ht =>
    intro s p h hs _
    obtain ⟨q, hstep, hnamed⟩ := hs.name ht
    exact ⟨q, hstep.reads, hnamed.ends⟩
  | group _ ih =>
    intro s p h hs _
    -- within the parentheses no operator waits, and the operand is whole behind them
    have hopen : Step s (sign .leftParen) (p.focusOn (.operand (h.enter .group))) :=
      hs.operand (by decide) rfl
    have hinner := ih.whole (p := p) (h := h.enter .group) (t := sign .rightParen) starts_operand
      rfl rfl rfl
    exact ⟨_, hopen.cons hinner, ends_afterOperand⟩
  | call args ht _ ih =>
    intro s p h hs _
    obtain ⟨q, hstep, hnamed⟩ := hs.name ht
    refine ⟨_, hstep.cons (hnamed.call.cons ?_), ends_afterOperand⟩
    -- without arguments the parenthesis is closed at once
    cases args with
    | nil => exact .single rfl rfl
    | cons arg args =>
      exact (listing_arguments _).reads _ ih (by simp) [] starts_argumentsOpen (Nat.le_of_eq rfl)
  | access indices ht hone htwo _ ih =>
    intro s p h hs _
    obtain ⟨q, hstep, hnamed⟩ := hs.name ht
    obtain ⟨place, final, hlist, hopen, hends⟩ := hnamed.access
    have hinner := hlist.reads indices ih hone [] starts_operand (by simpa using htwo)
    exact ⟨_, hstep.cons (hopen.cons hinner), hends _⟩
  | operand _ ih =>
    intro s p h hs hclear
    obtain ⟨q, hreads, hends⟩ := ih s p h hs hclear.operand
    exact ⟨q, hreads, hends.operand⟩
  | @binary cls ls rs op l r _ hop _ ihl ihr =>
    intro s p h hs hclear
    obtain ⟨q, hreads, hends⟩ := ihl s p h hs hclear
    have hfeed : p.feedAfterOperand l h op
        = some (p.focusOn (.operand (h.afterOperator cls (label op) l))) := by
      rw [Parser.feedAfterOperand, hop]
      rfl
    -- the left operand is followed by an operator of its own class: a chain grows to the left
    have hstep := hends op _ (fun cls' hcls' => ?_) hfeed
    · obtain ⟨q', hreads', hends'⟩ := ihr _ p (h.afterOperator cls (label op) l) starts_operand
        clear_push
      exact ⟨q', hreads.append (hstep.cons hreads'), hends'.binary hclear⟩
    · rw [hop] at hcls'
      cases hcls'
      cases cls <;> rfl

/-! ## Between statements -/

/-- The state takes statements as one between statements does that has the open constructs of
`p`. -/
structure Ready (q p : Parser) : Prop where
  step : ∀ {t r}, p.feedStatement t = some r → Step q t r
  finish : q.finish = (p.focusOn .statements).finish
  longExtent : q.longExtent = p.longExtent

theorem startsStatement_of_feedStatement (hfeed : p.feedStatement t = some r) :
    startsStatement t.terminal ∨
      t.terminal = .keyword .end ∧ ∃ done frames, p.frames = .block done :: frames := by
  unfold Parser.feedStatement at hfeed
  split at hfeed
  · next ht => exact .inl (by rw [ht]; rfl)
  · next k ht =>
    -- all keywords but `end` start a statement or an operand
    split at hfeed
    case h_12 =>
      split at hfeed
      · next done frames hframes => exact .inr ⟨ht, done, frames, hframes⟩
      · cases hfeed
    case h_13 =>
      have hstarts := startsExpression_of_feedOperand hfeed
      exact .inl (by simp [startsStatement, hstarts])
    all_goals exact .inl (by rw [ht]; rfl)
  · have hstarts := startsExpression_of_feedOperand hfeed
    exact .inl (by simp [startsStatement, hstarts])

theorem ready_statements : Ready (p.focusOn .statements) p where
  step hfeed := by
    refine ⟨?_, hfeed⟩
    rcases startsStatement_of_feedStatement hfeed with hstarts | ⟨hend, -⟩
    · simp [Parser.focusOn, Focus.accepts, hstarts]
    · rw [hend]
      rfl
  finish := rfl
  longExtent := rfl

/-- Where a statement must come, no block can end. -/
theorem ready_opening (hframes : ∀ done frames, p.frames ≠ .block done :: frames) :
    Ready (p.focusOn .opening) p where
  step hfeed := by
    refine ⟨?_, hfeed⟩
    rcases startsStatement_of_feedStatement hfeed with hstarts | ⟨-, done, frames, hblock⟩
    · exact hstarts
    · exact absurd hblock (hframes done frames)
  finish := rfl
  longExtent := rfl

theorem ready_ended : Ready (p.focusOn (.ended x)) (p.finishStatement x) where
  step := by
    intro t r hfeed
    have hstarts := startsStatement_of_feedStatement hfeed
    -- after a block only `else` is taken otherwise, and no statement starts with it
    have helse : t.terminal ≠ .keyword .else := by
      intro ht
      rw [ht] at hstarts
      rcases hstarts with hstarts | ⟨hend, -⟩
      · cases hstarts
      · cases hend
    refine ⟨?_, ?_⟩
    · rcases hstarts with hstarts | ⟨hend, -⟩
      · simp [Parser.focusOn, Focus.accepts, hstarts]
      · rw [hend]
        rfl
    · show Parser.feedEnded _ x t = some r
      unfold Parser.feedEnded
      split
      · next ht => exact absurd ht helse
      · exact hfeed
  finish := rfl
  longExtent := rfl

/-- The state takes the first token of a statement of the category. -/
structure Awaits (c : Category) (s p : Parser) : Prop where
  block : Step s (word .begin) (p.openTo (.block []) .statements)
  conditional : c ≠ .block →
    Step s (word .if) (p.focusOn (.operand (Hole.start .ifCondition)))
  any : c = .statement → ∀ {t r}, p.feedStatement t = some r → Step s t r

theorem Ready.awaits (hs : Ready s p) : Awaits .statement s p where
  block := hs.step rfl
  conditional _ := hs.step rfl
  any _ := hs.step

theorem awaits_blockOpen : Awaits .block (p.focusOn .blockOpen) p where
  block := ⟨rfl, rfl⟩
  conditional hc := absurd rfl hc
  any hc := nomatch hc

theorem awaits_elseOpen : Awaits .branch (p.focusOn .elseOpen) p where
  block := ⟨rfl, rfl⟩
  conditional _ := ⟨rfl, rfl⟩
  any hc := nomatch hc

theorem feedStatement_ident (ht : t.terminal = .ident) :
    p.feedStatement t = some (p.focusOn (.statementName (label t))) := by
  unfold Parser.feedStatement
  rw [ht]
  rfl

/-- A statement may start with an expression. -/
theorem Awaits.starts (hs : Awaits .statement s p) : Starts s p (Hole.start .effect) where
  operand := by
    intro t r ht hfeed
    refine hs.any rfl ?_
    have hstarts := startsExpression_of_feedOperand hfeed
    unfold Parser.feedStatement
    split
    · next hident => exact absurd hident ht
    · next k hk =>
      -- no keyword that starts a statement starts an operand
      rw [hk] at hstarts
      split <;> first | exact hfeed | cases hstarts
    · exact hfeed
  name ht := ⟨_, hs.any rfl (feedStatement_ident ht), named_statementName⟩

/-! ## Statements -/

/-- The tokens are read wherever a statement of the category may stand. A block that must come is
left at its `end`, where an `else` may follow. -/
def Takes (c : Category) (ts : List Token) (n : Node) : Prop :=
  ∀ s p, Awaits c s p → (∃ q, Reads s ts q ∧ Ready q (p.finishStatement n)) ∧
    (c = .block → Reads s ts (p.focusOn (.ended n)))

/-- A statement that only a place for any statement takes, and that is read to its very end. -/
theorem takes_statement {n : Node}
    (hreads : ∀ s p, Awaits .statement s p → Reads s ts (p.finishStatement n)) :
    Takes .statement ts n :=
  fun s p hs =>
    ⟨⟨_, hreads s p hs, ready_statements (p := p.finishStatement n)⟩, fun hc => nomatch hc⟩

/-- Statements in a row, in a construct that keeps them all. -/
theorem body_reads {keep : List Node → Frame} {frames : List Frame}
    (hkeep : ∀ done n, Parser.complete (keep done :: frames) n = keep (n :: done) :: frames)
    (parts : List (List Token × Node)) (hparts : ∀ x ∈ parts, Takes .statement x.1 x.2)
    (done : List Node) (hp : p.frames = keep done :: frames) (hs : Ready s p) :
    ∃ q, Reads s (parts.flatMap Prod.fst) q ∧
      Ready q { p with frames := keep ((parts.map Prod.snd).reverse ++ done) :: frames } := by
  -- on the statements still to come; those before are kept in the innermost construct
  induction parts generalizing s p done with
  | nil =>
    refine ⟨s, .nil, ?_⟩
    simp only [List.map_nil, List.reverse_nil, List.nil_append, ← hp]
    exact hs
  | cons part parts ih =>
    rw [List.forall_mem_cons] at hparts
    obtain ⟨⟨q, hreads, hq⟩, -⟩ := hparts.1 s p hs.awaits
    have hframes : (p.finishStatement part.2).frames = keep (part.2 :: done) :: frames := by
      rw [← hkeep, ← hp]
      rfl
    obtain ⟨q', hreads', hq'⟩ := ih hparts.2 (part.2 :: done) hframes hq
    refine ⟨q', hreads.append hreads', ?_⟩
    simp only [List.map_cons, List.reverse_cons, List.append_assoc, List.singleton_append]
    exact ⟨hq'.step, hq'.finish, hq'.longExtent⟩

/-- A block is read up to its `end`. -/
theorem block_reads {body : List (List Token × Node)}
    (hbody : ∀ x ∈ body, Takes .statement x.1 x.2) (hs : Awaits c s p) :
    Reads s (word .begin :: (body.flatMap Prod.fst ++ [word .end]))
      (p.focusOn (.ended (.block (body.map Prod.snd)))) := by
  obtain ⟨q, hreads, hq⟩ := body_reads (p := p.openTo (.block []) .statements)
    (fun _ _ => rfl) body hbody [] rfl ready_statements
  -- the statements stand in reverse in the construct, and `end` turns them around
  have hend := hq.step (t := word .end) rfl
  have hall := hs.block.cons (hreads.append hend.reads)
  simpa [Parser.focusOn, Parser.openTo] using hall

theorem takes_block {body : List (List Token × Node)}
    (hbody : ∀ x ∈ body, Takes .statement x.1 x.2) :
    Takes c (word .begin :: (body.flatMap Prod.fst ++ [word .end]))
      (.block (body.map Prod.snd)) :=
  fun _ _ hs => ⟨⟨_, block_reads hbody hs, ready_ended⟩, fun _ => block_reads hbody hs⟩

/-- The condition of a conditional and its first branch, whose `end` is where an `else` may
follow. -/
theorem then_reads {cs bs : List Token} {condition b : Node} (hc : c ≠ .block)
    (hcondition : Readable .whole cs condition) (hb : Takes .block bs b) (hs : Awaits c s p) :
    Reads s (word .if :: (cs ++ word .then :: bs))
      ((p.openTo (.thenBranch condition) .blockOpen).focusOn (.ended b)) := by
  have hthen := hcondition.whole (p := p) (h := Hole.start .ifCondition) (t := word .then)
    starts_operand rfl rfl rfl
  have hbranch := (hb _ (p.openTo (.thenBranch condition) .blockOpen) awaits_blockOpen).2 rfl
  have hall := (hs.conditional hc).cons (hthen.append hbranch)
  simpa using hall

theorem takes_ifThen {cs bs : List Token} {condition b : Node} (hc : c ≠ .block)
    (hcondition : Readable .whole cs condition) (hb : Takes .block bs b) :
    Takes c (word .if :: (cs ++ word .then :: bs)) (.ifStmt condition b .missing) := by
  intro s p hs
  refine ⟨⟨_, then_reads hc hcondition hb hs, ?_⟩, fun hblock => absurd hblock hc⟩
  exact ready_ended (p := p.openTo (.thenBranch condition) .blockOpen)

theorem takes_ifElse {cs bs es : List Token} {condition b e : Node} (hc : c ≠ .block)
    (hcondition : Readable .whole cs condition) (hb : Takes .block bs b)
    (he : Takes .branch es e) :
    Takes c (word .if :: (cs ++ word .then :: (bs ++ word .else :: es)))
      (.ifStmt condition b e) := by
  intro s p hs
  have hthen := then_reads hc hcondition hb hs
  have helse : Step ((p.openTo (.thenBranch condition) .blockOpen).focusOn (.ended b))
      (word .else) (p.openTo (.elseBranch condition b) .elseOpen) := ⟨rfl, rfl⟩
  -- the second branch may be a conditional again, so it need not stop at an `end`
  obtain ⟨⟨q, hreads, hq⟩, -⟩ :=
    he _ (p.openTo (.elseBranch condition b) .elseOpen) awaits_elseOpen
  refine ⟨⟨q, ?_, hq⟩, fun hblock => absurd hblock hc⟩
  simpa using hthen.append (helse.cons hreads)

theorem takes_while {cs bs : List Token} {condition b : Node}
    (hcondition : Readable .whole cs condition) (hb : Takes .block bs b) :
    Takes .statement (word .while :: (cs ++ word .do :: bs)) (.whileStmt condition b) := by
  intro s p hs
  have hstart : Step s (word .while) (p.focusOn (.operand (Hole.start .whileCondition))) :=
    hs.any rfl rfl
  have hdo := hcondition.whole (p := p) (h := Hole.start .whileCondition) (t := word .do)
    starts_operand rfl rfl rfl
  obtain ⟨⟨q, hreads, hq⟩, -⟩ :=
    hb _ (p.openTo (.whileBody condition) .blockOpen) awaits_blockOpen
  refine ⟨⟨q, ?_, hq⟩, fun hblock => nomatch hblock⟩
  simpa using hstart.cons (hdo.append hreads)

/-- Parameters after others, and the parenthesis that closes them. -/
theorem params_read {kind : RoutineKind} (params : List Token)
    (hparams : ∀ x ∈ params, x.terminal = .ident) (done : List String) (first : Token)
    (hfirst : first.terminal = .ident)
    (hs : Step s first (p.focusOn (.paramRead kind name (label first :: done)))) :
    Reads s (separated ((first :: params).map ([·])) ++ [sign .rightParen])
      (p.openTo (.routine kind name (done.reverse ++ (first :: params).map label)) .opening) := by
  -- on the parameters behind `first`, which is the next one to be read
  induction params generalizing s done first with
  | nil =>
    have hclose : Step (p.focusOn (.paramRead kind name (label first :: done)))
        (sign .rightParen) (p.openTo (.routine kind name (label first :: done).reverse) .opening) :=
      ⟨rfl, rfl⟩
    simpa [separated] using hs.cons hclose.reads
  | cons next params ih =>
    rw [List.forall_mem_cons] at hparams
    have hcomma : Step (p.focusOn (.paramRead kind name (label first :: done)))
        (sign .comma) (p.focusOn (.paramNext kind name (label first :: done))) := ⟨rfl, rfl⟩
    have hnext : Step (p.focusOn (.paramNext kind name (label first :: done))) next
        (p.focusOn (.paramRead kind name (label next :: label first :: done))) := by
      refine ⟨by simp [Parser.focusOn, Focus.accepts, hparams.1], ?_⟩
      simp [Parser.focusOn, Parser.feed, Parser.expect, label, hparams.1]
    have hrest := ih hparams.2 (label first :: done) next hparams.1 hnext
    simpa [separated, List.intercalate] using hs.cons (hcomma.cons hrest)

theorem takes_routine {kind : RoutineKind} {params bs : List Token} {b : Node}
    (ht : t.terminal = .ident) (hparams : ∀ x ∈ params, x.terminal = .ident)
    (hb : Takes .statement bs b) :
    Takes .statement
      (word (routineWord kind) :: t :: sign .leftParen ::
        (separated (params.map ([·])) ++ sign .rightParen :: bs))
      (.routineDecl kind (label t) (params.map fun x => .str (label x))
        (Parser.routineBody b)) := by
  intro s p hs
  have hstart : Step s (word (routineWord kind)) (p.focusOn (.routineStart kind)) :=
    hs.any rfl (by cases kind <;> rfl)
  have hname : Step (p.focusOn (.routineStart kind)) t
      (p.focusOn (.routineName kind (label t))) := by
    refine ⟨by simp [Parser.focusOn, Focus.accepts, ht], ?_⟩
    simp [Parser.focusOn, Parser.feed, Parser.expect, label, ht]
  have hopen : Step (p.focusOn (.routineName kind (label t))) (sign .leftParen)
      (p.focusOn (.paramsOpen kind (label t))) := ⟨rfl, rfl⟩
  have hread : Reads (p.focusOn (.paramsOpen kind (label t)))
      (separated (params.map ([·])) ++ [sign .rightParen])
      (p.openTo (.routine kind (label t) (params.map label)) .opening) := by
    -- the first parameter is read in a state of its own, where the list may also be closed
    cases params with
    | nil => exact .single rfl rfl
    | cons first params =>
      rw [List.forall_mem_cons] at hparams
      refine params_read params hparams.2 [] first hparams.1 ?_
      refine ⟨by simp [Parser.focusOn, Focus.accepts, hparams.1], ?_⟩
      simp [Parser.focusOn, Parser.feed, label, hparams.1]
  have hready : Ready (p.openTo (.routine kind (label t) (params.map label)) .opening)
      (p.openTo (.routine kind (label t) (params.map label)) .opening) :=
    ready_opening (p := p.openTo (.routine kind (label t) (params.map label)) .opening)
      (fun _ _ => nofun)
  obtain ⟨⟨q, hreads, hq⟩, -⟩ := hb _ _ hready.awaits
  refine ⟨⟨q, ?_, ?_⟩, fun hblock => nomatch hblock⟩
  · simpa using hstart.cons (hname.cons (hopen.cons (hread.append hreads)))
  · simpa [Parser.finishStatement, Parser.openTo, Parser.complete, Function.comp_def] using hq

/-! ## Declarations and assignments -/

theorem step_varType {k : Keyword} {tag : Tag} (hk : k.tag? = some tag)
    (hs : Awaits .statement s p) : Step s (word k) (p.focusOn (.varType tag)) := by
  refine hs.any rfl ?_
  cases k <;> cases hk <;> rfl

theorem step_varName {tag : Tag} (ht : t.terminal = .ident) :
    Step (p.focusOn (.varType tag)) t (p.focusOn (.varName tag (label t))) := by
  refine ⟨by simp [Parser.focusOn, Focus.accepts, ht], ?_⟩
  simp [Parser.focusOn, Parser.feed, Parser.expect, label, ht]

theorem takes_varDecl {k : Keyword} {tag : Tag} (hk : k.tag? = some tag)
    (ht : t.terminal = .ident) :
    Takes .statement [word k, t, sign .semicolon] (.varDecl tag (label t) .missing) := by
  refine takes_statement fun s p hs => ?_
  have hend : Step (p.focusOn (.varName tag (label t))) (sign .semicolon)
      (p.finishStatement (.varDecl tag (label t) .missing)) := ⟨rfl, rfl⟩
  exact (step_varType hk hs).cons ((step_varName ht).cons hend.reads)

theorem takes_varInit {k : Keyword} {tag : Tag} (hk : k.tag? = some tag)
    (ht : t.terminal = .ident) (he : Readable .whole ts e) :
    Takes .statement (word k :: t :: sign .equal :: (ts ++ [sign .semicolon]))
      (.varDecl tag (label t) e) := by
  refine takes_statement fun s p hs => ?_
  have hequal : Step (p.focusOn (.varName tag (label t))) (sign .equal)
      (p.focusOn (.operand (Hole.start (.initial tag (label t))))) := ⟨rfl, rfl⟩
  have hvalue := he.whole (p := p) (h := Hole.start (.initial tag (label t)))
    (t := sign .semicolon) starts_operand rfl rfl rfl
  exact (step_varType hk hs).cons ((step_varName ht).cons (hequal.cons hvalue))

/-- One extent, and the state after it. -/
theorem step_extent {header : ArrayHeader} {next : ArrayHeader → Focus} (ht : IsExtent t) :
    p.feedExtent header t next
      = some (p.focusOn (next { header with extents := header.extents ++ [extentOf t] })) := by
  have hshort : ¬ Numeral.maxDigits < (t.text.filterMap Text.decimalDigit?).length :=
    Nat.not_lt.2 ht.short
  simp only [Parser.feedExtent, ht.intLit, if_neg hshort]
  rfl

theorem extents_read (p : Parser) (name : String) (elem : Tag) {extents : List Token}
    (hone : extents ≠ []) (htwo : extents.length ≤ 2) (hextents : ∀ d ∈ extents, IsExtent d) :
    Reads (p.focusOn (.extentFirst ⟨name, elem, []⟩))
      (separated (extents.map ([·])) ++ [sign .rightSquare])
      (p.focusOn (.arrayExtents ⟨name, elem, extents.map extentOf⟩)) := by
  -- each extent is read in a state of its own
  match extents, hone, htwo with
  | [d], _, _ =>
    rw [List.forall_mem_singleton] at hextents
    have hfirst : Step (p.focusOn (.extentFirst ⟨name, elem, []⟩)) d
        (p.focusOn (.extentMore ⟨name, elem, [extentOf d]⟩)) :=
      ⟨by simp [Parser.focusOn, Focus.accepts, hextents.intLit], step_extent hextents⟩
    have hclose : Step (p.focusOn (.extentMore ⟨name, elem, [extentOf d]⟩)) (sign .rightSquare)
        (p.focusOn (.arrayExtents ⟨name, elem, [extentOf d]⟩)) := ⟨rfl, rfl⟩
    exact hfirst.cons hclose.reads
  | [d, d'], _, _ =>
    rw [List.forall_mem_cons, List.forall_mem_singleton] at hextents
    obtain ⟨hd, hd'⟩ := hextents
    have hfirst : Step (p.focusOn (.extentFirst ⟨name, elem, []⟩)) d
        (p.focusOn (.extentMore ⟨name, elem, [extentOf d]⟩)) :=
      ⟨by simp [Parser.focusOn, Focus.accepts, hd.intLit], step_extent hd⟩
    have hcomma : Step (p.focusOn (.extentMore ⟨name, elem, [extentOf d]⟩)) (sign .comma)
        (p.focusOn (.extentSecond ⟨name, elem, [extentOf d]⟩)) := ⟨rfl, rfl⟩
    have hsecond : Step (p.focusOn (.extentSecond ⟨name, elem, [extentOf d]⟩)) d'
        (p.focusOn (.extentLast ⟨name, elem, [extentOf d, extentOf d']⟩)) :=
      ⟨by simp [Parser.focusOn, Focus.accepts, hd'.intLit], step_extent hd'⟩
    have hclose : Step (p.focusOn (.extentLast ⟨name, elem, [extentOf d, extentOf d']⟩))
        (sign .rightSquare) (p.focusOn (.arrayExtents ⟨name, elem, [extentOf d, extentOf d']⟩)) :=
      ⟨rfl, rfl⟩
    exact hfirst.cons (hcomma.cons (hsecond.cons hclose.reads))

/-- The initial elements of an array, if there are any, and the semicolon. -/
theorem initializer_reads (p : Parser) (header : ArrayHeader)
    {init : Option (List (List Token × Node))}
    (hinit : ∀ x ∈ init.getD [], Readable .whole x.1 x.2) :
    Reads (p.focusOn (.arrayExtents header)) (initializer init ++ [sign .semicolon])
      (p.finishStatement (.arrayDecl header.name header.elem header.extents
        (init.map (·.map Prod.snd)))) := by
  cases init with
  | none => exact .single rfl rfl
  | some elements =>
    have hequal : Step (p.focusOn (.arrayExtents header)) (sign .equal)
        (p.focusOn (.arrayEquals header)) := ⟨rfl, rfl⟩
    have hopen : Step (p.focusOn (.arrayEquals header)) (sign .leftSquare)
        (p.focusOn (.arrayOpen header)) := ⟨rfl, rfl⟩
    have helements : Reads (p.focusOn (.arrayOpen header))
        (separated (elements.map Prod.fst) ++ [sign .rightSquare])
        (p.focusOn (.arrayFilled header (elements.map Prod.snd))) := by
      cases elements with
      | nil => exact .single rfl rfl
      | cons element elements =>
        exact (listing_elements _).reads _ hinit (by simp) [] starts_arrayOpen (Nat.le_of_eq rfl)
    have hend : Step (p.focusOn (.arrayFilled header (elements.map Prod.snd))) (sign .semicolon)
        (p.finishStatement (.arrayDecl header.name header.elem header.extents
          (some (elements.map Prod.snd)))) := ⟨rfl, rfl⟩
    have hall := hequal.cons (hopen.cons (helements.append hend.reads))
    simpa [initializer] using hall

theorem takes_arrayDecl {k : Keyword} {elem : Tag} {extents : List Token}
    {init : Option (List (List Token × Node))} (hk : k.tag? = some elem)
    (ht : t.terminal = .ident) (hone : extents ≠ []) (htwo : extents.length ≤ 2)
    (hextents : ∀ d ∈ extents, IsExtent d)
    (hinit : ∀ x ∈ init.getD [], Readable .whole x.1 x.2) :
    Takes .statement
      (word .array :: t :: sign .colon :: word k :: sign .leftSquare ::
        (separated (extents.map ([·])) ++ sign .rightSquare ::
          (initializer init ++ [sign .semicolon])))
      (.arrayDecl (label t) elem (extents.map extentOf) (init.map (·.map Prod.snd))) := by
  refine takes_statement fun s p hs => ?_
  have hstart : Step s (word .array) (p.focusOn .arrayStart) := hs.any rfl rfl
  have hname : Step (p.focusOn .arrayStart) t (p.focusOn (.arrayName (label t))) := by
    refine ⟨by simp [Parser.focusOn, Focus.accepts, ht], ?_⟩
    simp [Parser.focusOn, Parser.feed, Parser.expect, label, ht]
  have hcolon : Step (p.focusOn (.arrayName (label t))) (sign .colon)
      (p.focusOn (.arrayColon (label t))) := ⟨rfl, rfl⟩
  have htype : Step (p.focusOn (.arrayColon (label t))) (word k)
      (p.focusOn (.arrayType ⟨label t, elem, []⟩)) := by
    refine ⟨?_, ?_⟩
    · show k.tag?.isSome = true
      rw [hk]
      rfl
    · show k.tag?.map _ = _
      rw [hk]
      rfl
  have hopen : Step (p.focusOn (.arrayType ⟨label t, elem, []⟩)) (sign .leftSquare)
      (p.focusOn (.extentFirst ⟨label t, elem, []⟩)) := ⟨rfl, rfl⟩
  have hextents := extents_read p (label t) elem hone htwo hextents
  have hinit := initializer_reads p ⟨label t, elem, extents.map extentOf⟩ hinit
  have hall := hextents.append hinit
  simp only [List.append_assoc, List.singleton_append] at hall
  exact hstart.cons (hname.cons (hcolon.cons (htype.cons (hopen.cons hall))))

theorem takes_assign (ht : t.terminal = .ident) (he : Readable .whole ts e) :
    Takes .statement (t :: sign .becomes :: (ts ++ [sign .semicolon])) (.assign (label t) e) := by
  refine takes_statement fun s p hs => ?_
  have hname : Step s t (p.focusOn (.statementName (label t))) :=
    hs.any rfl (feedStatement_ident ht)
  have hbecomes : Step (p.focusOn (.statementName (label t))) (sign .becomes)
      (p.focusOn (.operand (Hole.start (.value (label t))))) := ⟨rfl, rfl⟩
  have hvalue := he.whole (p := p) (h := Hole.start (.value (label t))) (t := sign .semicolon)
    starts_operand rfl rfl rfl
  exact hname.cons (hbecomes.cons hvalue)

theorem takes_indexAssign {indices : List (List Token × Node)} (ht : t.terminal = .ident)
    (hone : indices ≠ []) (htwo : indices.length ≤ 2)
    (hindices : ∀ i ∈ indices, Readable .whole i.1 i.2) (he : Readable .whole ts e) :
    Takes .statement
      (t :: sign .leftSquare :: (separated (indices.map Prod.fst) ++ sign .rightSquare ::
        sign .becomes :: (ts ++ [sign .semicolon])))
      (.indexAssign (label t) (indices.map Prod.snd) e) := by
  refine takes_statement fun s p hs => ?_
  have hname : Step s t (p.focusOn (.statementName (label t))) :=
    hs.any rfl (feedStatement_ident ht)
  have hopen : Step (p.focusOn (.statementName (label t))) (sign .leftSquare)
      (p.focusOn (.operand (Hole.start (.targetIndex (label t) none)))) := ⟨rfl, rfl⟩
  have hread := (listing_targets p (label t)).reads indices hindices hone [] starts_operand
    (by simpa using htwo)
  have hbecomes : Step (p.focusOn (.statementElement (label t) (indices.map Prod.snd)))
      (sign .becomes)
      (p.focusOn (.operand (Hole.start (.elementValue (label t) (indices.map Prod.snd))))) :=
    ⟨rfl, rfl⟩
  have hvalue := he.whole (p := p)
    (h := Hole.start (.elementValue (label t) (indices.map Prod.snd))) (t := sign .semicolon)
    starts_operand rfl rfl rfl
  have hall := hname.cons (hopen.cons (hread.append (hbecomes.cons hvalue)))
  simpa using hall

theorem takes_return (he : Readable .whole ts e) :
    Takes .statement (word .return :: (ts ++ [sign .semicolon])) (.returnStmt e) := by
  refine takes_statement fun s p hs => ?_
  have hstart : Step s (word .return) (p.focusOn (.operand (Hole.start .result))) :=
    hs.any rfl rfl
  have hvalue := he.whole (p := p) (h := Hole.start .result) (t := sign .semicolon)
    starts_operand rfl rfl rfl
  exact hstart.cons hvalue

theorem takes_exprStmt (he : Readable .whole ts e) :
    Takes .statement (ts ++ [sign .semicolon]) (.exprStmt e) :=
  takes_statement fun _ _ hs => he.whole hs.starts rfl rfl rfl

/-! ## Programs -/

/-- Every statement of the grammar is read. -/
theorem Clause.takes {n : Node} (hclause : Clause c ts n) : Takes c ts n := by
  induction hclause with
  | varDecl hk ht => exact takes_varDecl hk ht
  | varInit hk ht he => exact takes_varInit hk ht he.readable
  | arrayDecl extents init hk ht hone htwo hextents hinit =>
    exact takes_arrayDecl hk ht hone htwo hextents fun x hx => (hinit x hx).readable
  | assign ht he => exact takes_assign ht he.readable
  | indexAssign indices ht hone htwo hindices he =>
    exact takes_indexAssign ht hone htwo (fun i hi => (hindices i hi).readable) he.readable
  | ifThen hc hcondition _ ih => exact takes_ifThen hc hcondition.readable ih
  | ifElse hc hcondition _ _ ihb ihe => exact takes_ifElse hc hcondition.readable ihb ihe
  | whileStmt hcondition _ ih => exact takes_while hcondition.readable ih
  | routine kind params ht hparams _ ih => exact takes_routine ht hparams ih
  | returnStmt he => exact takes_return he.readable
  | exprStmt he => exact takes_exprStmt he.readable
  | block body _ ih => exact takes_block ih

/-- The tokens of a program are read, and the parser then has its statements. -/
theorem Derives.reads {body : List Node} (hts : Derives ts body) :
    ∃ q, Reads Parser.initial ts q ∧ q.finish = some body ∧ q.longExtent = none := by
  obtain ⟨parts, hparts, rfl, rfl⟩ := hts
  -- the program is the only open construct, and it keeps the statements
  have hready : Ready Parser.initial Parser.initial :=
    ready_opening (p := Parser.initial) (fun _ _ => nofun)
  obtain ⟨q, hreads, hq⟩ := body_reads (p := Parser.initial) (fun _ _ => rfl) parts
    (fun x hx => (hparts x hx).takes) [] rfl hready
  refine ⟨q, hreads, ?_, hq.longExtent⟩
  rw [hq.finish]
  simp [Parser.finish, Parser.focusOn]

/-- A program is read from every text in which each of its tokens is ended by what follows it. -/
theorem Derives.parse_parted {cs : List Char} {body : List Node} (hts : Derives ts body)
    (hfits : ∀ t ∈ ts, t.Fits) (hplain : ∀ t ∈ ts, t.Plain) (hparted : Parted cs ts) :
    parse (String.ofList cs) = .ok (.program body) := by
  obtain ⟨q, hreads, hfinish, hlong⟩ := hts.reads
  obtain ⟨last, hdone⟩ := readTokens_parted hreads hfits hplain hparted none
  rw [parse, parseChars, String.toList_ofList, hdone]
  simp only [hfinish, hlong]

/-- A program is read from the text of its tokens with a blank between each two. -/
theorem Derives.parse_spaced {body : List Node} (hts : Derives ts body)
    (hfits : ∀ t ∈ ts, t.Fits) (hplain : ∀ t ∈ ts, t.Plain) :
    parse (String.ofList (spaced ts)) = .ok (.program body) :=
  hts.parse_parted hfits hplain (parted_spaced ts)

end MiniAlgol.Source
