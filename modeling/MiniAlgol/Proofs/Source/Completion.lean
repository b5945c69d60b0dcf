import MiniAlgol.Proofs.Source.Completeness

/-!
# What is read can be completed

Whatever tokens the parser has taken, more tokens lead it to a state in which a program may end
(`Settled.completable`). The next token that a state is completed with is chosen by what the parser
is in the middle of: an operand where one is missing, then the brackets that are open, then what
ends the statement, then the `end` of each open block. `Completable` is the goal, and `Settled` says
of a state what it takes to get there: the open constructs stand on the program, and statements are
listed only in it or in a block.
-/

namespace MiniAlgol.Source

variable {p q : Parser} {t : Token} {u : Terminal} {h : Hole} {x e s b : Node} {use : Use}
  {frame : Frame} {frames : List Frame} {focus : Focus} {ts : List Token}

/-! ## Open constructs -/

/-- The open constructs stand within each other, and the outermost is the program. -/
inductive Grounded : List Frame → Prop where
  | program {done : List Node} : Grounded [.program done]
  | block {done : List Node} {frames : List Frame} (hframes : Grounded frames) :
      Grounded (.block done :: frames)
  | routine {kind : RoutineKind} {name : String} {params : List String} {frames : List Frame}
      (hframes : Grounded frames) : Grounded (.routine kind name params :: frames)
  | thenBranch {condition : Node} {frames : List Frame} (hframes : Grounded frames) :
      Grounded (.thenBranch condition :: frames)
  | elseBranch {condition first : Node} {frames : List Frame} (hframes : Grounded frames) :
      Grounded (.elseBranch condition first :: frames)
  | whileBody {condition : Node} {frames : List Frame} (hframes : Grounded frames) :
      Grounded (.whileBody condition :: frames)

/-- The innermost construct is a list of statements: the program or a block. -/
inductive Lists : List Frame → Prop where
  | program {done : List Node} : Lists [.program done]
  | block {done : List Node} {frames : List Frame} (hframes : Grounded frames) :
      Lists (.block done :: frames)

theorem Lists.grounded (hframes : Lists frames) : Grounded frames := by
  cases hframes with
  | program => exact .program
  | block hframes => exact .block hframes

/-- A finished statement finishes constructs up to the list that it is in. -/
theorem Grounded.complete (hframes : Grounded frames) (s : Node) :
    Lists (Parser.complete frames s) ∧ (Parser.complete frames s).length ≤ frames.length := by
  induction hframes generalizing s with
  | program => exact ⟨.program, le_rfl⟩
  | block hframes => exact ⟨.block hframes, le_rfl⟩
  | routine _ ih | thenBranch _ ih | elseBranch _ ih | whileBody _ ih =>
    obtain ⟨hlists, hle⟩ := ih _
    exact ⟨hlists, hle.trans (Nat.le_succ _)⟩

theorem Grounded.inner {done : List Node} (hframes : Grounded (.block done :: frames)) :
    Grounded frames := by
  cases hframes with
  | block hframes => exact hframes

theorem Grounded.branch {condition : Node} (hframes : Grounded (.thenBranch condition :: frames)) :
    Grounded frames := by
  cases hframes with
  | thenBranch hframes => exact hframes

/-! ## The states that come up -/

/-- A state that the parser can be in. -/
structure Settled (p : Parser) : Prop where
  grounded : Grounded p.frames
  lists : p.focus = .statements → Lists p.frames

namespace Settled

theorem focusOn (hp : Grounded p.frames) (hfocus : focus ≠ .statements) :
    Settled (p.focusOn focus) :=
  ⟨hp, fun h => absurd h hfocus⟩

theorem openTo (hp : Grounded (frame :: p.frames)) (hfocus : focus ≠ .statements) :
    Settled (p.openTo frame focus) :=
  ⟨hp, fun h => absurd h hfocus⟩

theorem openBlock (hp : Grounded p.frames) : Settled (p.openTo (.block []) .statements) :=
  ⟨.block hp, fun _ => .block hp⟩

theorem finishStatement (hp : Grounded p.frames) (s : Node) : Settled (p.finishStatement s) :=
  ⟨(hp.complete s).1.grounded, fun _ => (hp.complete s).1⟩

theorem initial : Settled Parser.initial :=
  ⟨.program, nofun⟩

theorem feedOperand (hp : Grounded p.frames) (hfeed : p.feedOperand h t = some q) : Settled q := by
  unfold Parser.feedOperand at hfeed
  split at hfeed
  · cases hfeed
    exact .focusOn hp nofun
  · split at hfeed <;> cases hfeed <;> exact .focusOn hp nofun

theorem feedUse (hp : Grounded p.frames) (hfeed : p.feedUse use e u = some q) : Settled q := by
  unfold Parser.feedUse at hfeed
  split at hfeed <;> cases hfeed
  · exact .finishStatement hp _
  · exact .focusOn hp nofun
  · exact .focusOn hp nofun
  · exact .finishStatement hp _
  · exact .focusOn hp nofun
  · exact .focusOn hp nofun
  · exact .focusOn hp nofun
  · exact .finishStatement hp _
  · exact .openTo (.thenBranch hp) nofun
  · exact .openTo (.whileBody hp) nofun
  · exact .finishStatement hp _
  · exact .finishStatement hp _

theorem feedClose (hp : Grounded p.frames) (hfeed : p.feedClose h e u = some q) : Settled q := by
  unfold Parser.feedClose at hfeed
  split at hfeed
  · exact .feedUse hp hfeed
  · simp only at hfeed
    split at hfeed <;> cases hfeed <;> exact .focusOn hp nofun

theorem feedAfterOperand (hp : Grounded p.frames) (hfeed : p.feedAfterOperand x h t = some q) :
    Settled q := by
  unfold Parser.feedAfterOperand at hfeed
  split at hfeed
  · cases hfeed
    exact .focusOn hp nofun
  · exact .feedClose hp hfeed

theorem feedStatement (hp : Grounded p.frames) (hfeed : p.feedStatement t = some q) :
    Settled q := by
  unfold Parser.feedStatement at hfeed
  split at hfeed
  · cases hfeed
    exact .focusOn hp nofun
  · split at hfeed
    case h_11 =>
      cases hfeed
      exact .openBlock hp
    case h_12 =>
      -- the `end` of a block
      split at hfeed <;> cases hfeed
      next hframes => exact ⟨(hframes ▸ hp).inner, nofun⟩
    case h_13 => exact .feedOperand hp hfeed
    all_goals
      cases hfeed
      exact .focusOn hp nofun
  · exact .feedOperand hp hfeed

theorem feedExtent {header : ArrayHeader} (next : ArrayHeader → Focus) (hp : Grounded p.frames)
    (hnext : ∀ header, next header ≠ .statements)
    (hfeed : p.feedExtent header t next = some q) : Settled q := by
  unfold Parser.feedExtent at hfeed
  split at hfeed
  · simp only at hfeed
    split at hfeed <;> cases hfeed <;> exact ⟨hp, fun h => absurd h (hnext _)⟩
  · cases hfeed

theorem feedEnded (hp : Grounded p.frames) (hfeed : p.feedEnded b t = some q) : Settled q := by
  unfold Parser.feedEnded at hfeed
  split at hfeed
  · split at hfeed <;> cases hfeed
    next hframes => exact ⟨.elseBranch (hframes ▸ hp).branch, nofun⟩
  · exact feedStatement (finishStatement hp b).grounded hfeed

theorem expect {v : Terminal} {next : Parser} (hfeed : Parser.expect u v next = some q)
    (hnext : Settled next) : Settled q := by
  unfold Parser.expect at hfeed
  split at hfeed <;> cases hfeed
  exact hnext

/-- Taking a token leads from one such state to another. -/
theorem feed (hp : Settled p) (hfeed : p.feed t = some q) : Settled q := by
  obtain ⟨hp, -⟩ := hp
  unfold Parser.feed at hfeed
  cases hfocus : p.focus <;> rw [hfocus] at hfeed <;> simp only at hfeed
  case opening | statements => exact feedStatement hp hfeed
  case ended => exact feedEnded hp hfeed
  case extentFirst => exact feedExtent .extentMore hp (fun _ => nofun) hfeed
  case extentSecond => exact feedExtent .extentLast hp (fun _ => nofun) hfeed
  case arrayFilled => exact expect hfeed (finishStatement hp _)
  case blockOpen => exact expect hfeed (openBlock hp)
  case varName | arrayExtents =>
    split at hfeed <;> cases hfeed
    · exact focusOn hp nofun
    · exact finishStatement hp _
  case arrayColon =>
    split at hfeed
    · obtain ⟨elem, -, rfl⟩ := Option.map_eq_some_iff.1 hfeed
      exact focusOn hp nofun
    · cases hfeed
  case paramsOpen | paramRead =>
    split at hfeed <;> cases hfeed
    all_goals first | exact focusOn hp nofun | exact openTo (.routine hp) nofun
  case extentMore =>
    split at hfeed <;> cases hfeed <;> exact focusOn hp nofun
  case elseOpen =>
    split at hfeed <;> cases hfeed
    · exact openBlock hp
    · exact focusOn hp nofun
  case arrayOpen | argumentsOpen =>
    split at hfeed
    · cases hfeed
      exact focusOn hp nofun
    · exact feedOperand hp hfeed
  case statementName | statementElement | operandName =>
    split at hfeed
    all_goals first
      | exact feedAfterOperand hp hfeed
      | cases hfeed; exact focusOn hp nofun
  case operand => exact feedOperand hp hfeed
  case afterOperand => exact feedAfterOperand hp hfeed
  all_goals exact expect hfeed (focusOn hp nofun)

/-- So does taking any number of them. -/
theorem reads (hp : Settled p) (hreads : Reads p ts q) : Settled q := by
  induction hreads with
  | nil => exact hp
  | cons _ hfeed _ ih => exact ih (hp.feed hfeed)

end Settled

/-! ## The way to the end of the program -/

/-- Tokens lead from the state to one in which the program may end. No extent among them is too
long. -/
def Completable (p : Parser) : Prop :=
  ∃ ts q body, Reads p ts q ∧ (∀ t ∈ ts, t.Fits ∧ t.Plain) ∧ q.finish = some body ∧
    q.longExtent = p.longExtent

/-- A sign fits its terminal, and is no name. -/
theorem fits_sign (hu : isFixed u) : (sign u).Fits ∧ (sign u).Plain := by
  constructor
  · cases u <;> first | rfl | cases hu
  · intro hident
    obtain rfl : u = .ident := hident
    cases hu

/-- An operand. -/
def zeroToken : Token :=
  ⟨.intLit, ['0']⟩

/-- A name. -/
def someName : Token :=
  ⟨.ident, ['x']⟩

namespace Completable

variable {body : List Node} {long : Option Nat} {header : ArrayHeader}

theorem done (h : p.finish = some body) : Completable p :=
  ⟨[], p, body, .nil, List.forall_mem_nil _, h, rfl⟩

theorem step (hq : Completable q) (hstep : Step p t q) (ht : t.Fits ∧ t.Plain)
    (hlong : q.longExtent = p.longExtent) : Completable p := by
  obtain ⟨ts, r, body, hreads, hts, hfinish, hr⟩ := hq
  exact ⟨t :: ts, r, body, hstep.cons hreads, List.forall_mem_cons.2 ⟨ht, hts⟩, hfinish,
    hr.trans hlong⟩

theorem sign (u : Terminal) (hq : Completable q) (hstep : Step p (sign u) q) (hu : isFixed u)
    (hlong : q.longExtent = p.longExtent) : Completable p :=
  hq.step hstep (fits_sign hu) hlong

theorem zero (hq : Completable q) (hstep : Step p zeroToken q)
    (hlong : q.longExtent = p.longExtent) : Completable p :=
  hq.step hstep ⟨⟨nofun, List.forall_mem_singleton.2 (by decide)⟩, nofun⟩ hlong

theorem someName (hq : Completable q) (hstep : Step p someName q)
    (hlong : q.longExtent = p.longExtent) : Completable p :=
  hq.step hstep ⟨⟨'x', [], rfl, by decide, List.forall_mem_nil _⟩, fun _ => by decide⟩ hlong

/-! ### Statements -/

/-- After a block, the blocks around it are closed one after the other. -/
theorem ended (hframes : Grounded frames) (b : Node) : Completable ⟨.ended b, frames, long⟩ := by
  induction hlength : frames.length using Nat.strongRecOn generalizing frames b with
  | ind n ih =>
    subst hlength
    obtain ⟨hlists, hle⟩ := hframes.complete b
    generalize hrest : Parser.complete frames b = rest at hlists hle
    cases hlists with
    | @program finished =>
      have hfinish : Parser.finish ⟨.ended b, frames, long⟩ = some finished.reverse := by
        simp only [Parser.finish, hrest]
      exact done hfinish
    | @block finished inner hinner =>
      have hfinish : Parser.finishStatement ⟨.ended b, frames, long⟩ b
          = ⟨.statements, .block finished :: inner, long⟩ := by
        rw [Parser.finishStatement, hrest]
      refine sign (.keyword .end) (ih inner.length hle hinner (.block finished.reverse) rfl)
        ⟨rfl, ?_⟩ rfl rfl
      show Parser.feedStatement (Parser.finishStatement ⟨.ended b, frames, long⟩ b)
        (Source.sign (.keyword .end)) = _
      rw [hfinish]
      rfl

theorem statements (hframes : Lists frames) : Completable ⟨.statements, frames, long⟩ := by
  cases hframes with
  | program => exact done rfl
  | @block finished inner hframes =>
    exact sign (.keyword .end) (ended hframes (.block finished.reverse)) ⟨rfl, rfl⟩ rfl rfl

theorem finished (hframes : Grounded frames) (s : Node) :
    Completable ⟨.statements, Parser.complete frames s, long⟩ :=
  statements (hframes.complete s).1

theorem opened (hframes : Grounded frames) :
    Completable ⟨.statements, .block [] :: frames, long⟩ :=
  statements (.block hframes)

theorem blockOpen (hframes : Grounded frames) : Completable ⟨.blockOpen, frames, long⟩ :=
  sign (.keyword .begin) (opened hframes) ⟨rfl, rfl⟩ rfl rfl

/-! ### Expressions -/

theorem statementElement (hframes : Grounded frames) (name : String) (indices : List Node) :
    Completable ⟨.statementElement name indices, frames, long⟩ :=
  sign .semicolon (finished hframes _) ⟨rfl, rfl⟩ rfl rfl

theorem arrayFilled (hframes : Grounded frames) (init : List Node) :
    Completable ⟨.arrayFilled header init, frames, long⟩ :=
  sign .semicolon (finished hframes _) ⟨rfl, rfl⟩ rfl rfl

/-- After an expression, what ends its statement. -/
theorem afterExpression (hframes : Grounded frames) (x : Node) (pending : Pending) (use : Use) :
    Completable ⟨.afterOperand x ⟨pending, [], use⟩, frames, long⟩ := by
  cases use with
  | initial | value | elementValue | result | effect =>
    exact sign .semicolon (finished hframes _) ⟨rfl, rfl⟩ rfl rfl
  | element => exact sign .rightSquare (arrayFilled hframes _) ⟨rfl, rfl⟩ rfl rfl
  | targetIndex name first =>
    cases first with
    | none | some =>
      exact sign .rightSquare (statementElement hframes name _) ⟨rfl, rfl⟩ rfl rfl
  | ifCondition =>
    exact sign (.keyword .then) (blockOpen (.thenBranch hframes)) ⟨rfl, rfl⟩ rfl rfl
  | whileCondition =>
    exact sign (.keyword .do) (blockOpen (.whileBody hframes)) ⟨rfl, rfl⟩ rfl rfl

/-- After an operand, the brackets that are open are closed from within. -/
theorem afterOperand (hframes : Grounded frames) (x : Node) (h : Hole) :
    Completable ⟨.afterOperand x h, frames, long⟩ := by
  obtain ⟨pending, outer, use⟩ := h
  induction outer generalizing x pending with
  | nil => exact afterExpression hframes x pending use
  | cons first outer ih =>
    obtain ⟨around, enclosure⟩ := first
    cases enclosure with
    | group | arguments => exact sign .rightParen (ih _ around) ⟨rfl, rfl⟩ rfl rfl
    | indices name first =>
      cases first with
      | none | some => exact sign .rightSquare (ih _ around) ⟨rfl, rfl⟩ rfl rfl

theorem operand (hframes : Grounded frames) (h : Hole) : Completable ⟨.operand h, frames, long⟩ :=
  zero (afterOperand hframes _ h) ⟨rfl, rfl⟩ rfl

/-- Another operand, behind an operator. -/
theorem operator (hframes : Grounded frames)
    (hstep : Step p ⟨.addOp, ['+']⟩ ⟨.operand h, frames, long⟩) (hlong : long = p.longExtent) :
    Completable p :=
  step (operand hframes h) hstep ⟨List.mem_cons_self, nofun⟩ hlong

theorem opening (hframes : Grounded frames) : Completable ⟨.opening, frames, long⟩ :=
  zero (afterOperand hframes _ (Hole.start .effect)) ⟨rfl, rfl⟩ rfl

/-! ### Declarations -/

theorem varName (hframes : Grounded frames) (tag : Tag) (name : String) :
    Completable ⟨.varName tag name, frames, long⟩ :=
  sign .semicolon (finished hframes _) ⟨rfl, rfl⟩ rfl rfl

theorem arrayExtents (hframes : Grounded frames) (header : ArrayHeader) :
    Completable ⟨.arrayExtents header, frames, long⟩ :=
  sign .semicolon (finished hframes _) ⟨rfl, rfl⟩ rfl rfl

theorem extentMore (hframes : Grounded frames) (header : ArrayHeader) :
    Completable ⟨.extentMore header, frames, long⟩ :=
  sign .rightSquare (arrayExtents hframes header) ⟨rfl, rfl⟩ rfl rfl

theorem extentLast (hframes : Grounded frames) (header : ArrayHeader) :
    Completable ⟨.extentLast header, frames, long⟩ :=
  sign .rightSquare (arrayExtents hframes header) ⟨rfl, rfl⟩ rfl rfl

theorem arrayType (hframes : Grounded frames) (header : ArrayHeader) :
    Completable ⟨.arrayType header, frames, long⟩ := by
  refine sign .leftSquare (q := ⟨.extentFirst header, frames, long⟩) ?_ ⟨rfl, rfl⟩ rfl rfl
  exact zero (extentMore hframes _) ⟨rfl, rfl⟩ rfl

theorem arrayName (hframes : Grounded frames) (name : String) :
    Completable ⟨.arrayName name, frames, long⟩ := by
  refine sign .colon (q := ⟨.arrayColon name, frames, long⟩) ?_ ⟨rfl, rfl⟩ rfl rfl
  exact sign (.keyword .int) (arrayType hframes _) ⟨rfl, rfl⟩ rfl rfl

theorem paramRead (hframes : Grounded frames) (kind : RoutineKind) (name : String)
    (params : List String) : Completable ⟨.paramRead kind name params, frames, long⟩ :=
  sign .rightParen (opening (.routine hframes)) ⟨rfl, rfl⟩ rfl rfl

theorem paramsOpen (hframes : Grounded frames) (kind : RoutineKind) (name : String) :
    Completable ⟨.paramsOpen kind name, frames, long⟩ :=
  sign .rightParen (opening (.routine hframes)) ⟨rfl, rfl⟩ rfl rfl

theorem routineName (hframes : Grounded frames) (kind : RoutineKind) (name : String) :
    Completable ⟨.routineName kind name, frames, long⟩ :=
  sign .leftParen (paramsOpen hframes kind name) ⟨rfl, rfl⟩ rfl rfl

end Completable

/-- Every state that the parser can be in can be completed. -/
theorem Settled.completable (hp : Settled p) : Completable p := by
  obtain ⟨focus, frames, long⟩ := p
  obtain ⟨hframes, hlists⟩ := hp
  cases focus with
  | opening => exact .opening hframes
  | statements => exact .statements (hlists rfl)
  | ended b => exact .ended hframes b
  | varType => exact .someName (.varName hframes _ _) ⟨rfl, rfl⟩ rfl
  | varName => exact .varName hframes _ _
  | arrayStart => exact .someName (.arrayName hframes _) ⟨rfl, rfl⟩ rfl
  | arrayName => exact .arrayName hframes _
  | arrayColon => exact .sign (.keyword .int) (.arrayType hframes _) ⟨rfl, rfl⟩ rfl rfl
  | arrayType => exact .arrayType hframes _
  | extentFirst => exact .zero (.extentMore hframes _) ⟨rfl, rfl⟩ rfl
  | extentMore => exact .extentMore hframes _
  | extentSecond => exact .zero (.extentLast hframes _) ⟨rfl, rfl⟩ rfl
  | extentLast => exact .extentLast hframes _
  | arrayExtents => exact .arrayExtents hframes _
  | arrayEquals =>
    refine .sign .leftSquare (q := ⟨.arrayOpen _, frames, long⟩) ?_ ⟨rfl, rfl⟩ rfl rfl
    exact .sign .rightSquare (.arrayFilled hframes []) ⟨rfl, rfl⟩ rfl rfl
  | arrayOpen => exact .sign .rightSquare (.arrayFilled hframes []) ⟨rfl, rfl⟩ rfl rfl
  | arrayFilled => exact .arrayFilled hframes _
  | routineStart => exact .someName (.routineName hframes _ _) ⟨rfl, rfl⟩ rfl
  | routineName => exact .routineName hframes _ _
  | paramsOpen => exact .paramsOpen hframes _ _
  | paramRead => exact .paramRead hframes _ _ _
  | paramNext => exact .someName (.paramRead hframes _ _ _) ⟨rfl, rfl⟩ rfl
  | blockOpen => exact .blockOpen hframes
  | elseOpen => exact .sign (.keyword .begin) (.opened hframes) ⟨rfl, rfl⟩ rfl rfl
  | statementName => exact .operator hframes ⟨rfl, rfl⟩ rfl
  | statementElement => exact .statementElement hframes _ _
  | operand h => exact .operand hframes h
  | argumentsOpen name h =>
    exact .sign .rightParen (.afterOperand hframes _ h) ⟨rfl, rfl⟩ rfl rfl
  | operandName => exact .operator hframes ⟨rfl, rfl⟩ rfl
  | afterOperand x h => exact .afterOperand hframes x h

end MiniAlgol.Source
