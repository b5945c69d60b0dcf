import MiniAlgol.Proofs.Source.Reading
import MiniAlgol.Proofs.Source.Shape

/-!
# The parser takes only what the grammar describes

The relations of this module say what tokens a state of the parser has consumed: those of the open
constructs (`Open`), and those of what it is in the middle of (`Focused`). Taking one more token
keeps them (`Consumed.feed`), so at the end of the source the tokens derive the tree that the
parser gives (`exists_derives`), which has the shape of the grammar (`isProgram_of_parse`).
-/

namespace MiniAlgol.Source

/-! ## What an expression that is being read has consumed -/

/-- The tokens up to an operator that waits for its right operand. -/
inductive Waits (cls : BinaryClass) : Waiting → List Token → Prop where
  | none : Waits cls none []
  | some {ls : List Token} {l : Node} {op : Token} (hl : Phrase (.of cls) ls l)
      (hop : operatorClass? op.terminal = some cls) : Waits cls (some (l, label op)) (ls ++ [op])

/-- The tokens up to the operand that the operators wait for. -/
inductive Pends (p : Pending) : List Token → Prop where
  | mk {as bs ms : List Token} (hcomparison : Waits .comparison p.comparison as)
      (hadditive : Waits .additive p.additive bs)
      (hmultiplicative : Waits .multiplicative p.multiplicative ms) : Pends p (as ++ (bs ++ ms))

/-- Expressions with a comma after each; their trees are in reverse. -/
inductive Listed : List Token → List Node → Prop where
  | mk (done : List (List Token × Node)) (hdone : ∀ a ∈ done, Phrase .whole a.1 a.2) :
      Listed (listed (done.map Prod.fst)) (done.map Prod.snd).reverse

/-- The tokens of a bracket that is open. -/
inductive Encloses : Enclosure → List Token → Prop where
  | group : Encloses .group [sign .leftParen]
  | arguments {t : Token} {ts : List Token} {done : List Node} (ht : t.terminal = .ident)
      (hdone : Listed ts done) :
      Encloses (.arguments (label t) done) (t :: sign .leftParen :: ts)
  | firstIndex {t : Token} (ht : t.terminal = .ident) :
      Encloses (.indices (label t) none) [t, sign .leftSquare]
  | secondIndex {t : Token} {es : List Token} {e : Node} (ht : t.terminal = .ident)
      (he : Phrase .whole es e) :
      Encloses (.indices (label t) (some e)) (t :: sign .leftSquare :: (es ++ [sign .comma]))

/-- The tokens of the open brackets and of what stands before each. -/
inductive Nested : List (Pending × Enclosure) → List Token → Prop where
  | nil : Nested [] []
  | cons {outer : List (Pending × Enclosure)} {p : Pending} {b : Enclosure}
      {os ps bs : List Token} (houter : Nested outer os) (hp : Pends p ps) (hb : Encloses b bs) :
      Nested ((p, b) :: outer) (os ++ (ps ++ bs))

/-- The tokens of an array declaration up to its extents. -/
inductive Heads : ArrayHeader → List Token → Prop where
  | mk {k : Keyword} {elem : Tag} {t : Token} (extents : List Token) (hk : k.tag? = some elem)
      (ht : t.terminal = .ident) (hone : extents ≠ []) (htwo : extents.length ≤ 2)
      (hextents : ∀ d ∈ extents, IsExtent d) :
      Heads ⟨label t, elem, extents.map extentOf⟩
        (word .array :: t :: sign .colon :: word k :: sign .leftSquare ::
          (separated (extents.map ([·])) ++ [sign .rightSquare]))

/-- The tokens of an array element. -/
inductive Indexed : String → List Node → List Token → Prop where
  | mk {t : Token} (indices : List (List Token × Node)) (ht : t.terminal = .ident)
      (hone : indices ≠ []) (htwo : indices.length ≤ 2)
      (hindices : ∀ i ∈ indices, Phrase .whole i.1 i.2) :
      Indexed (label t) (indices.map Prod.snd)
        (t :: sign .leftSquare :: (separated (indices.map Prod.fst) ++ [sign .rightSquare]))

/-- The tokens of a statement before an expression in it. The category is one that takes the
statement. -/
inductive Uses : Category → Use → List Token → Prop where
  | initial {k : Keyword} {tag : Tag} {t : Token} (hk : k.tag? = some tag)
      (ht : t.terminal = .ident) :
      Uses .statement (.initial tag (label t)) [word k, t, sign .equal]
  | element {header : ArrayHeader} {hs ts : List Token} {done : List Node} (hh : Heads header hs)
      (hdone : Listed ts done) :
      Uses .statement (.element header.name header.elem header.extents done)
        (hs ++ sign .equal :: sign .leftSquare :: ts)
  | value {t : Token} (ht : t.terminal = .ident) :
      Uses .statement (.value (label t)) [t, sign .becomes]
  | firstIndex {t : Token} (ht : t.terminal = .ident) :
      Uses .statement (.targetIndex (label t) none) [t, sign .leftSquare]
  | secondIndex {t : Token} {es : List Token} {e : Node} (ht : t.terminal = .ident)
      (he : Phrase .whole es e) :
      Uses .statement (.targetIndex (label t) (some e))
        (t :: sign .leftSquare :: (es ++ [sign .comma]))
  | elementValue {name : String} {indices : List Node} {ts : List Token}
      (hi : Indexed name indices ts) :
      Uses .statement (.elementValue name indices) (ts ++ [sign .becomes])
  | ifCondition {c : Category} (hc : c ≠ .block) : Uses c .ifCondition [word .if]
  | whileCondition : Uses .statement .whileCondition [word .while]
  | result : Uses .statement .result [word .return]
  | effect : Uses .statement .effect []

/-- The tokens of a statement before an operand in it. -/
inductive Holes (c : Category) (h : Hole) : List Token → Prop where
  | mk {us os ps : List Token} (huse : Uses c h.use us) (houter : Nested h.outer os)
      (hpending : Pends h.pending ps) : Holes c h (us ++ (os ++ ps))

/-! ## What a state has consumed -/

/-- The tokens of a routine declaration up to the parenthesis that opens the parameters. -/
def routineHead (kind : RoutineKind) (t : Token) : List Token :=
  [word (routineWord kind), t, sign .leftParen]

/-- The tokens of the open constructs. The category is what the innermost of them takes next. -/
inductive Open : Category → List Frame → List Token → Prop where
  | program {done : List Node} {ts : List Token} (hts : Derives ts done.reverse) :
      Open .statement [.program done] ts
  | block {c : Category} {frames : List Frame} {done : List Node} {os ts : List Token}
      (ho : Open c frames os) (hts : Derives ts done.reverse) :
      Open .statement (.block done :: frames) (os ++ word .begin :: ts)
  | routine {frames : List Frame} {t : Token} {os : List Token} (kind : RoutineKind)
      (params : List Token) (ho : Open .statement frames os) (ht : t.terminal = .ident)
      (hparams : ∀ x ∈ params, x.terminal = .ident) :
      Open .statement (.routine kind (label t) (params.map label) :: frames)
        (os ++ (routineHead kind t ++ (separated (params.map ([·])) ++ [sign .rightParen])))
  | thenBranch {c : Category} {frames : List Frame} {os cs : List Token} {condition : Node}
      (hc : c ≠ .block) (ho : Open c frames os) (hcondition : Phrase .whole cs condition) :
      Open .block (.thenBranch condition :: frames) (os ++ word .if :: (cs ++ [word .then]))
  | elseBranch {c : Category} {frames : List Frame} {os cs bs : List Token} {condition b : Node}
      (hc : c ≠ .block) (ho : Open c frames os) (hcondition : Phrase .whole cs condition)
      (hb : Clause .block bs b) :
      Open .branch (.elseBranch condition b :: frames)
        (os ++ word .if :: (cs ++ word .then :: (bs ++ [word .else])))
  | whileBody {frames : List Frame} {os cs : List Token} {condition : Node}
      (ho : Open .statement frames os) (hcondition : Phrase .whole cs condition) :
      Open .block (.whileBody condition :: frames) (os ++ word .while :: (cs ++ [word .do]))

/-- The tokens of the statement that the parser is in the middle of. The category is one that
takes the statement. -/
inductive Focused : Category → Focus → List Token → Prop where
  | opening : Focused .statement .opening []
  | statements : Focused .statement .statements []
  | ended {c : Category} {b : Node} {bs : List Token} (hb : Clause .block bs b) :
      Focused c (.ended b) bs
  | varType {k : Keyword} {tag : Tag} (hk : k.tag? = some tag) :
      Focused .statement (.varType tag) [word k]
  | varName {k : Keyword} {tag : Tag} {t : Token} (hk : k.tag? = some tag)
      (ht : t.terminal = .ident) : Focused .statement (.varName tag (label t)) [word k, t]
  | arrayStart : Focused .statement .arrayStart [word .array]
  | arrayName {t : Token} (ht : t.terminal = .ident) :
      Focused .statement (.arrayName (label t)) [word .array, t]
  | arrayColon {t : Token} (ht : t.terminal = .ident) :
      Focused .statement (.arrayColon (label t)) [word .array, t, sign .colon]
  | arrayType {k : Keyword} {elem : Tag} {t : Token} (hk : k.tag? = some elem)
      (ht : t.terminal = .ident) :
      Focused .statement (.arrayType ⟨label t, elem, []⟩) [word .array, t, sign .colon, word k]
  | extentFirst {k : Keyword} {elem : Tag} {t : Token} (hk : k.tag? = some elem)
      (ht : t.terminal = .ident) :
      Focused .statement (.extentFirst ⟨label t, elem, []⟩)
        [word .array, t, sign .colon, word k, sign .leftSquare]
  | extentMore {k : Keyword} {elem : Tag} {t d : Token} (hk : k.tag? = some elem)
      (ht : t.terminal = .ident) (hd : IsExtent d) :
      Focused .statement (.extentMore ⟨label t, elem, [extentOf d]⟩)
        [word .array, t, sign .colon, word k, sign .leftSquare, d]
  | extentSecond {k : Keyword} {elem : Tag} {t d : Token} (hk : k.tag? = some elem)
      (ht : t.terminal = .ident) (hd : IsExtent d) :
      Focused .statement (.extentSecond ⟨label t, elem, [extentOf d]⟩)
        [word .array, t, sign .colon, word k, sign .leftSquare, d, sign .comma]
  | extentLast {k : Keyword} {elem : Tag} {t d d' : Token} (hk : k.tag? = some elem)
      (ht : t.terminal = .ident) (hd : IsExtent d) (hd' : IsExtent d') :
      Focused .statement (.extentLast ⟨label t, elem, [extentOf d, extentOf d']⟩)
        [word .array, t, sign .colon, word k, sign .leftSquare, d, sign .comma, d']
  | arrayExtents {header : ArrayHeader} {hs : List Token} (hh : Heads header hs) :
      Focused .statement (.arrayExtents header) hs
  | arrayEquals {header : ArrayHeader} {hs : List Token} (hh : Heads header hs) :
      Focused .statement (.arrayEquals header) (hs ++ [sign .equal])
  | arrayOpen {header : ArrayHeader} {hs : List Token} (hh : Heads header hs) :
      Focused .statement (.arrayOpen header) (hs ++ [sign .equal, sign .leftSquare])
  | arrayFilled {header : ArrayHeader} {hs : List Token} (elements : List (List Token × Node))
      (hh : Heads header hs) (helements : ∀ x ∈ elements, Phrase .whole x.1 x.2) :
      Focused .statement (.arrayFilled header (elements.map Prod.snd))
        (hs ++ initializer (some elements))
  | routineStart (kind : RoutineKind) :
      Focused .statement (.routineStart kind) [word (routineWord kind)]
  | routineName {kind : RoutineKind} {t : Token} (ht : t.terminal = .ident) :
      Focused .statement (.routineName kind (label t)) [word (routineWord kind), t]
  | paramsOpen {kind : RoutineKind} {t : Token} (ht : t.terminal = .ident) :
      Focused .statement (.paramsOpen kind (label t)) (routineHead kind t)
  | paramRead {t x : Token} (kind : RoutineKind) (params : List Token) (ht : t.terminal = .ident)
      (hparams : ∀ y ∈ params, y.terminal = .ident) (hx : x.terminal = .ident) :
      Focused .statement (.paramRead kind (label t) (label x :: (params.map label).reverse))
        (routineHead kind t ++ (listed (params.map ([·])) ++ [x]))
  | paramNext {t : Token} (kind : RoutineKind) (params : List Token) (ht : t.terminal = .ident)
      (hparams : ∀ y ∈ params, y.terminal = .ident) :
      Focused .statement (.paramNext kind (label t) (params.map label).reverse)
        (routineHead kind t ++ listed (params.map ([·])))
  | blockOpen : Focused .block .blockOpen []
  | elseOpen : Focused .branch .elseOpen []
  | statementName {t : Token} (ht : t.terminal = .ident) :
      Focused .statement (.statementName (label t)) [t]
  | statementElement {name : String} {indices : List Node} {ts : List Token}
      (hi : Indexed name indices ts) : Focused .statement (.statementElement name indices) ts
  | operand {c : Category} {h : Hole} {us : List Token} (hh : Holes c h us) :
      Focused c (.operand h) us
  | argumentsOpen {c : Category} {h : Hole} {us : List Token} {t : Token} (hh : Holes c h us)
      (ht : t.terminal = .ident) :
      Focused c (.argumentsOpen (label t) h) (us ++ [t, sign .leftParen])
  | operandName {c : Category} {h : Hole} {us : List Token} {t : Token} (hh : Holes c h us)
      (ht : t.terminal = .ident) : Focused c (.operandName (label t) h) (us ++ [t])
  | afterOperand {c : Category} {h : Hole} {us xs : List Token} {x : Node} (hh : Holes c h us)
      (hx : Phrase .primary xs x) : Focused c (.afterOperand x h) (us ++ xs)

/-- The tokens that the parser has taken to come to the state. -/
inductive Consumed (p : Parser) : List Token → Prop where
  | mk {c : Category} {os us : List Token} (ho : Open c p.frames os) (hf : Focused c p.focus us) :
      Consumed p (os ++ us)

variable {c : Category} {cls : BinaryClass} {p q : Parser} {h : Hole} {t op : Token} {x e s : Node}
  {ts us os ps xs es : List Token}

/-! ## Expressions -/

theorem Waits.join {w : Waiting} {ws rs : List Token} {r : Node} (hw : Waits cls w ws)
    (hr : Phrase (operandLevel cls) rs r) : Phrase (.of cls) (ws ++ rs) (join cls w r) := by
  cases hw with
  | none => exact .operand hr
  | some hl hop =>
    rw [List.append_assoc]
    exact .binary hl hop hr

namespace Pends

variable {pending : Pending}

theorem empty : Pends {} [] := by
  have := Pends.mk (p := {}) .none .none .none
  simpa using this

theorem close (hp : Pends pending ps) (hx : Phrase .primary xs x) :
    Phrase .whole (ps ++ xs) (pending.close x) := by
  obtain ⟨hcomparison, hadditive, hmultiplicative⟩ := hp
  rw [List.append_assoc, List.append_assoc]
  exact hcomparison.join (hadditive.join (hmultiplicative.join hx))

/-- What binds at least as strongly as the operator becomes its left operand. -/
theorem push (hp : Pends pending ps) (hx : Phrase .primary xs x)
    (hop : operatorClass? op.terminal = some cls) :
    Pends (pending.push cls (label op) x) (ps ++ xs ++ [op]) := by
  -- the left operand is all that is read so far, or the sum or the product that it ends with
  have hall := hp.close hx
  obtain ⟨hcomparison, hadditive, hmultiplicative⟩ := hp
  have hproduct := hmultiplicative.join hx
  have hsum := hadditive.join hproduct
  cases cls with
  | comparison =>
    have := Pends.mk (p := pending.push .comparison (label op) x) (.some hall hop) .none .none
    simpa using this
  | additive =>
    have := Pends.mk (p := pending.push .additive (label op) x) hcomparison (.some hsum hop) .none
    simpa using this
  | multiplicative =>
    have := Pends.mk (p := pending.push .multiplicative (label op) x) hcomparison hadditive
      (.some hproduct hop)
    simpa using this

end Pends

theorem Listed.nil : Listed [] [] :=
  .mk [] (by simp)

theorem Listed.cons {done : List Node} (hdone : Listed ts done) (he : Phrase .whole es e) :
    Listed (ts ++ es ++ [sign .comma]) (e :: done) := by
  obtain ⟨done, hdone⟩ := hdone
  have := Listed.mk (done ++ [(es, e)]) (by grind)
  simpa [listed_concat] using this

/-- The last of the expressions has no comma after it. -/
theorem Listed.last {done : List Node} (hdone : Listed ts done) (he : Phrase .whole es e) :
    ∃ parts : List (List Token × Node), (∀ a ∈ parts, Phrase .whole a.1 a.2) ∧
      ts ++ es = separated (parts.map Prod.fst) ∧ (e :: done).reverse = parts.map Prod.snd := by
  obtain ⟨done, hdone⟩ := hdone
  refine ⟨done ++ [(es, e)], by grind, ?_, by simp⟩
  rw [List.map_append, List.map_cons, List.map_nil, separated_concat]

namespace Holes

theorem start {use : Use} (huse : Uses c use us) : Holes c (Hole.start use) us := by
  have := Holes.mk (h := Hole.start use) huse .nil .empty
  simpa using this

theorem enter {b : Enclosure} (hh : Holes c h us) (hb : Encloses b es) :
    Holes c (h.enter b) (us ++ es) := by
  obtain ⟨huse, houter, hpending⟩ := hh
  have := Holes.mk (h := h.enter b) huse (.cons houter hpending hb) .empty
  simpa using this

theorem afterOperator (hh : Holes c h us) (hx : Phrase .primary xs x)
    (hop : operatorClass? op.terminal = some cls) :
    Holes c (h.afterOperator cls (label op) x) (us ++ xs ++ [op]) := by
  obtain ⟨huse, houter, hpending⟩ := hh
  have := Holes.mk (h := h.afterOperator cls (label op) x) huse houter (hpending.push hx hop)
  simpa using this

end Holes

/-! ## Finished statements -/

theorem Clause.of_block (hb : Clause .block ts s) : Clause c ts s := by
  cases hb with
  | ifThen hc => exact absurd rfl hc
  | ifElse hc => exact absurd rfl hc
  | block body hbody => exact .block body hbody

theorem Heads.clause {header : ArrayHeader} {hs : List Token}
    (init : Option (List (List Token × Node))) (hh : Heads header hs)
    (hinit : ∀ x ∈ init.getD [], Phrase .whole x.1 x.2) :
    Clause .statement (hs ++ (initializer init ++ [sign .semicolon]))
      (.arrayDecl header.name header.elem header.extents (init.map (·.map Prod.snd))) := by
  obtain ⟨extents, hk, ht, hone, htwo, hextents⟩ := hh
  simpa using Clause.arrayDecl extents init hk ht hone htwo hextents hinit

/-- A statement that the innermost open construct takes may finish it, and then that one is a
statement of the construct around it. -/
theorem Open.complete {frames : List Frame} (ho : Open c frames os) (hs : Clause c us s) :
    Open .statement (Parser.complete frames s) (os ++ us) := by
  -- programs and blocks keep the statement, and all other constructs end with it
  induction ho generalizing us s with
  | program hts =>
    rw [Parser.complete]
    refine .program ?_
    rw [List.reverse_cons]
    exact hts.concat hs
  | block ho hts =>
    rw [Parser.complete, List.append_assoc, List.cons_append]
    refine .block ho ?_
    rw [List.reverse_cons]
    exact hts.concat hs
  | routine kind params ho ht hparams ih =>
    rw [Parser.complete, List.map_map]
    simpa [routineHead, Function.comp_def] using ih (.routine kind params ht hparams hs)
  | thenBranch hc ho hcondition ih =>
    rw [Parser.complete]
    simpa using ih (.ifThen hc hcondition hs)
  | elseBranch hc ho hcondition hb ih =>
    rw [Parser.complete]
    simpa using ih (.ifElse hc hcondition hb hs)
  | whileBody ho hcondition ih =>
    rw [Parser.complete]
    simpa using ih (.whileStmt hcondition hs)

namespace Consumed

theorem focusOn {focus : Focus} (ho : Open c p.frames os) (hf : Focused c focus us) :
    Consumed (p.focusOn focus) (os ++ us) :=
  .mk ho hf

theorem finishStatement (ho : Open c p.frames os) (hs : Clause c us s) :
    Consumed (p.finishStatement s) (os ++ us) := by
  have := Consumed.mk (p := p.finishStatement s) (ho.complete hs) .statements
  simpa using this

theorem openTo {c' : Category} {frame : Frame} {focus : Focus}
    (ho : Open c' (frame :: p.frames) os) (hf : Focused c' focus []) :
    Consumed (p.openTo frame focus) os := by
  have := Consumed.mk (p := p.openTo frame focus) ho hf
  simpa using this

/-! ## One more token -/

theorem feedOperand (ho : Open c p.frames os) (hh : Holes c h us) (hfits : t.Fits)
    (hfeed : p.feedOperand h t = some q) : Consumed q (os ++ (us ++ [t])) := by
  unfold Parser.feedOperand at hfeed
  split at hfeed
  · next x hx =>
    cases hfeed
    exact focusOn ho (.afterOperand hh (.literal hx))
  · split at hfeed
    · next ht =>
      cases hfeed
      exact focusOn ho (.operandName hh ht)
    · next ht =>
      cases hfeed
      rw [eq_sign hfits ht rfl]
      exact focusOn ho (.operand (hh.enter .group))
    · cases hfeed

theorem feedUse {use : Use} (ho : Open c p.frames os) (huse : Uses c use us)
    (he : Phrase .whole es e) (hfits : t.Fits) (hfeed : p.feedUse use e t.terminal = some q) :
    Consumed q (os ++ (us ++ es ++ [t])) := by
  -- the use and the token after the expression say together what comes next
  unfold Parser.feedUse at hfeed
  split at hfeed <;> cases hfeed
  · next hterm =>
    obtain ⟨hk, ht⟩ := huse
    rw [eq_sign hfits hterm rfl]
    exact finishStatement ho (.varInit hk ht he)
  · next hterm =>
    obtain _ | ⟨hh, hdone⟩ := huse
    rw [eq_sign hfits hterm rfl]
    have := focusOn ho (.operand (.start (.element hh (hdone.cons he))))
    simpa using this
  · next hterm =>
    obtain _ | ⟨hh, hdone⟩ := huse
    obtain ⟨parts, hparts, htokens, hnodes⟩ := hdone.last he
    rw [eq_sign hfits hterm rfl, hnodes]
    have := focusOn ho (.arrayFilled parts hh hparts)
    simpa [initializer, ← htokens] using this
  · next hterm =>
    cases huse with
    | value ht =>
      rw [eq_sign hfits hterm rfl]
      exact finishStatement ho (.assign ht he)
  · next hterm =>
    cases huse with
    | firstIndex ht =>
      rw [eq_sign hfits hterm rfl]
      have := focusOn ho (.operand (.start (.secondIndex ht he)))
      simpa using this
  · next hterm =>
    cases huse with
    | firstIndex ht =>
      rw [eq_sign hfits hterm rfl]
      have := focusOn ho (.statementElement (.mk [(es, e)] ht (by simp) (by simp)
        (by simpa using he)))
      simpa [separated] using this
  · next first hterm =>
    cases huse with
    | secondIndex ht hfirst =>
      rw [eq_sign hfits hterm rfl]
      have := focusOn ho (.statementElement (.mk [(_, first), (es, e)] ht (by simp)
        (by simp) (by simpa using ⟨hfirst, he⟩)))
      simpa [separated] using this
  · next hterm =>
    cases huse with
    | elementValue hi =>
      obtain ⟨indices, ht, hone, htwo, hindices⟩ := hi
      rw [eq_sign hfits hterm rfl]
      have := finishStatement ho (.indexAssign indices ht hone htwo hindices he)
      simpa using this
  · next hterm =>
    cases huse with
    | ifCondition hc =>
      rw [eq_sign hfits hterm rfl]
      exact openTo (.thenBranch hc ho he) .blockOpen
  · next hterm =>
    cases huse with
    | whileCondition =>
      rw [eq_sign hfits hterm rfl]
      exact openTo (.whileBody ho he) .blockOpen
  · next hterm =>
    cases huse with
    | result =>
      rw [eq_sign hfits hterm rfl]
      exact finishStatement ho (.returnStmt he)
  · next hterm =>
    cases huse with
    | effect =>
      rw [eq_sign hfits hterm rfl]
      exact finishStatement ho (.exprStmt he)

theorem feedClose (ho : Open c p.frames os) (hh : Holes c h us) (hx : Phrase .primary xs x)
    (hfits : t.Fits) (hfeed : p.feedClose h (h.pending.close x) t.terminal = some q) :
    Consumed q (os ++ (us ++ xs ++ [t])) := by
  obtain ⟨huse, houter, hpending⟩ := hh
  have he := hpending.close hx
  unfold Parser.feedClose at hfeed
  cases houter' : h.outer with
  | nil =>
    -- no bracket is open, so the statement goes on
    rw [houter'] at hfeed houter
    cases houter
    have := feedUse ho huse he hfits hfeed
    simpa using this
  | cons top outer =>
    obtain ⟨pending, enclosure⟩ := top
    rw [houter'] at hfeed houter
    obtain _ | ⟨houter, hp, hb⟩ := houter
    -- what stands in the bracket becomes an operand of the place around it
    have haround : Holes c { pending, outer, use := h.use } _ := .mk huse houter hp
    simp only at hfeed
    split at hfeed <;> cases hfeed
    · next hterm =>
      cases hb
      rw [eq_sign hfits hterm rfl]
      have := focusOn ho (.afterOperand haround (.group he))
      simpa using this
    · next hterm =>
      cases hb with
      | arguments ht hdone =>
        rw [eq_sign hfits hterm rfl]
        have := focusOn ho (.operand (haround.enter (.arguments ht (hdone.cons he))))
        simpa [Parser.enter] using this
    · next hterm =>
      cases hb with
      | arguments ht hdone =>
        obtain ⟨parts, hparts, htokens, hnodes⟩ := hdone.last he
        rw [eq_sign hfits hterm rfl, hnodes]
        have := focusOn ho (.afterOperand haround (.call parts ht hparts))
        simpa [← htokens] using this
    · next hterm =>
      cases hb with
      | firstIndex ht =>
        rw [eq_sign hfits hterm rfl]
        have := focusOn ho (.operand (haround.enter (.secondIndex ht he)))
        simpa [Parser.enter] using this
    · next hterm =>
      cases hb with
      | firstIndex ht =>
        rw [eq_sign hfits hterm rfl]
        have := focusOn ho (.afterOperand haround (.access [(_, _)] ht (by simp)
          (by simp) (by simpa using he)))
        simpa [separated] using this
    · next first hterm =>
      cases hb with
      | secondIndex ht hfirst =>
        rw [eq_sign hfits hterm rfl]
        have := focusOn ho (.afterOperand haround (.access [(_, _), (_, _)] ht
          (by simp) (by simp) (by simpa using ⟨hfirst, he⟩)))
        simpa [separated] using this

theorem feedAfterOperand (ho : Open c p.frames os) (hh : Holes c h us)
    (hx : Phrase .primary xs x) (hfits : t.Fits) (hfeed : p.feedAfterOperand x h t = some q) :
    Consumed q (os ++ (us ++ xs ++ [t])) := by
  unfold Parser.feedAfterOperand at hfeed
  split at hfeed
  · next cls hcls =>
    cases hfeed
    exact focusOn ho (.operand (hh.afterOperator hx hcls))
  · exact feedClose ho hh hx hfits hfeed

theorem feedStatement (ho : Open .statement p.frames os) (hfits : t.Fits)
    (hfeed : p.feedStatement t = some q) : Consumed q (os ++ [t]) := by
  have heffect : Holes .statement (Hole.start .effect) [] := .start .effect
  unfold Parser.feedStatement at hfeed
  split at hfeed
  · next ht =>
    cases hfeed
    exact focusOn ho (.statementName ht)
  · next k ht =>
    have htoken := eq_sign hfits ht rfl
    have hfocus : ∀ {focus}, Focused .statement focus [word k] →
        some (p.focusOn focus) = some q → Consumed q (os ++ [t]) := by
      intro focus hf hq
      cases hq
      rw [htoken]
      exact focusOn ho hf
    split at hfeed
    · exact hfocus (.varType rfl) hfeed
    · exact hfocus (.varType rfl) hfeed
    · exact hfocus (.varType rfl) hfeed
    · exact hfocus (.varType rfl) hfeed
    · exact hfocus .arrayStart hfeed
    · exact hfocus (.operand (.start (.ifCondition (by decide)))) hfeed
    · exact hfocus (.operand (.start .whileCondition)) hfeed
    · exact hfocus (.routineStart .function) hfeed
    · exact hfocus (.routineStart .procedure) hfeed
    · exact hfocus (.operand (.start .result)) hfeed
    · cases hfeed
      rw [htoken]
      exact openTo (.block ho .nil) .statements
    · -- the `end` of a block closes it
      split at hfeed
      · next done frames hframes =>
        cases hfeed
        rw [hframes] at ho
        obtain _ | ⟨ho, hts⟩ := ho
        rw [htoken, List.append_assoc, List.cons_append]
        exact .mk (p := { p with focus := .ended (.block done.reverse), frames }) ho
          (.ended (.of_derives hts))
      · cases hfeed
    · exact feedOperand ho heffect hfits hfeed
  · exact feedOperand ho heffect hfits hfeed

theorem feedEnded {b : Node} {bs : List Token} (ho : Open c p.frames os)
    (hb : Clause .block bs b) (hfits : t.Fits) (hfeed : p.feedEnded b t = some q) :
    Consumed q (os ++ bs ++ [t]) := by
  unfold Parser.feedEnded at hfeed
  split at hfeed
  · next ht =>
    split at hfeed
    · next condition frames hframes =>
      -- the block was the first branch of a conditional, which goes on
      cases hfeed
      rw [hframes] at ho
      cases ho with
      | thenBranch hc ho hcondition =>
        rw [eq_sign hfits ht rfl]
        have := Consumed.mk (p := { p with
          focus := .elseOpen, frames := .elseBranch condition b :: frames })
          (.elseBranch hc ho hcondition hb) .elseOpen
        simpa using this
    · cases hfeed
  · exact feedStatement (ho.complete hb.of_block) hfits hfeed

/-- An extent that is not too long. -/
theorem feedExtent {header : ArrayHeader} {next : ArrayHeader → Focus} (ho : Open c p.frames os)
    (hf : IsExtent t → Focused c (next { header with extents := header.extents ++ [extentOf t] })
      (us ++ [t]))
    (hfeed : p.feedExtent header t next = some q) (hlong : q.longExtent = none) :
    Consumed q (os ++ (us ++ [t])) := by
  unfold Parser.feedExtent at hfeed
  split at hfeed
  · next ht =>
    simp only at hfeed
    split at hfeed
    · -- an extent that is too long is noted
      cases hfeed
      simp only at hlong
      cases hp : p.longExtent <;> rw [hp] at hlong <;> cases hlong
    · next hshort =>
      cases hfeed
      exact focusOn ho (hf ⟨ht, Nat.not_lt.1 hshort⟩)
  · cases hfeed

theorem expect {u v : Terminal} {next : Parser} (hfeed : Parser.expect u v next = some q) :
    u = v ∧ q = next := by
  unfold Parser.expect at hfeed
  split at hfeed
  · next huv =>
    cases hfeed
    exact ⟨huv, rfl⟩
  · cases hfeed

/-- Taking one more token, unless it is an extent that is too long. -/
theorem feed (hp : Consumed p ts) (hfits : t.Fits) (hfeed : p.feed t = some q)
    (hlong : q.longExtent = none) : Consumed q (ts ++ [t]) := by
  obtain ⟨ho, hf⟩ := hp
  rename_i c os us
  rw [List.append_assoc]
  -- one case a state; most states take one or two terminals
  unfold Parser.feed at hfeed
  generalize p.focus = focus at hf hfeed
  cases hf with
  | opening | statements => exact feedStatement ho hfits hfeed
  | ended hb =>
    rw [← List.append_assoc]
    exact feedEnded ho hb hfits hfeed
  | varType hk =>
    obtain ⟨ht, rfl⟩ := expect hfeed
    exact focusOn ho (.varName hk ht)
  | varName hk ht =>
    simp only at hfeed
    split at hfeed <;> cases hfeed
    · next hterm =>
      rw [eq_sign hfits hterm rfl]
      exact focusOn ho (.operand (.start (.initial hk ht)))
    · next hterm =>
      rw [eq_sign hfits hterm rfl]
      exact finishStatement ho (.varDecl hk ht)
  | arrayStart =>
    obtain ⟨ht, rfl⟩ := expect hfeed
    exact focusOn ho (.arrayName ht)
  | arrayName ht =>
    obtain ⟨hterm, rfl⟩ := expect hfeed
    rw [eq_sign hfits hterm rfl]
    exact focusOn ho (.arrayColon ht)
  | arrayColon ht =>
    simp only at hfeed
    split at hfeed
    · next k hterm =>
      obtain ⟨elem, hk, rfl⟩ := Option.map_eq_some_iff.1 hfeed
      rw [eq_sign hfits hterm rfl]
      exact focusOn ho (.arrayType hk ht)
    · cases hfeed
  | arrayType hk ht =>
    obtain ⟨hterm, rfl⟩ := expect hfeed
    rw [eq_sign hfits hterm rfl]
    exact focusOn ho (.extentFirst hk ht)
  | extentFirst hk ht =>
    exact feedExtent ho (fun hd => .extentMore hk ht hd) hfeed hlong
  | extentMore hk ht hd =>
    simp only at hfeed
    split at hfeed <;> cases hfeed
    · next hterm =>
      rw [eq_sign hfits hterm rfl]
      exact focusOn ho (.extentSecond hk ht hd)
    · next hterm =>
      rw [eq_sign hfits hterm rfl]
      have := focusOn ho (.arrayExtents (.mk [_] hk ht (by simp) (by simp)
        (by simpa using hd)))
      simpa [separated] using this
  | extentSecond hk ht hd =>
    exact feedExtent ho (fun hd' => .extentLast hk ht hd hd') hfeed hlong
  | extentLast hk ht hd hd' =>
    obtain ⟨hterm, rfl⟩ := expect hfeed
    rw [eq_sign hfits hterm rfl]
    have := focusOn ho (.arrayExtents (.mk [_, _] hk ht (by simp) (by simp)
      (by simpa using ⟨hd, hd'⟩)))
    simpa [separated] using this
  | arrayExtents hh =>
    simp only at hfeed
    split at hfeed <;> cases hfeed
    · next hterm =>
      rw [eq_sign hfits hterm rfl]
      exact focusOn ho (.arrayEquals hh)
    · next hterm =>
      rw [eq_sign hfits hterm rfl]
      exact finishStatement ho (hh.clause none (by simp))
  | arrayEquals hh =>
    obtain ⟨hterm, rfl⟩ := expect hfeed
    rw [eq_sign hfits hterm rfl]
    have := focusOn ho (.arrayOpen hh)
    simpa using this
  | arrayOpen hh =>
    simp only at hfeed
    split at hfeed
    · next hterm =>
      cases hfeed
      rw [eq_sign hfits hterm rfl]
      have := focusOn ho (.arrayFilled [] hh (by simp))
      simpa [initializer, separated] using this
    · exact feedOperand ho (.start (.element hh .nil)) hfits hfeed
  | arrayFilled elements hh helements =>
    obtain ⟨hterm, rfl⟩ := expect hfeed
    rw [eq_sign hfits hterm rfl]
    have := finishStatement ho (hh.clause (some elements) helements)
    simpa using this
  | routineStart kind =>
    obtain ⟨ht, rfl⟩ := expect hfeed
    exact focusOn ho (.routineName ht)
  | routineName ht =>
    obtain ⟨hterm, rfl⟩ := expect hfeed
    rw [eq_sign hfits hterm rfl]
    exact focusOn ho (.paramsOpen ht)
  | @paramsOpen kind _ ht =>
    simp only at hfeed
    split at hfeed <;> cases hfeed
    · next hterm =>
      rw [eq_sign hfits hterm rfl]
      have := openTo (.routine kind [] ho ht (by simp)) .opening
      simpa [separated] using this
    · next hx => exact focusOn ho (.paramRead kind [] ht (by simp) hx)
  | @paramRead _ x kind params ht hparams hx =>
    -- the parameter that was just read joins those before it
    simp only at hfeed
    split at hfeed <;> cases hfeed
    · next hterm =>
      rw [eq_sign hfits hterm rfl]
      have := focusOn ho (.paramNext kind (params ++ [x]) ht (by grind))
      simpa [listed_concat] using this
    · next hterm =>
      rw [eq_sign hfits hterm rfl]
      have := openTo (.routine kind (params ++ [x]) ho ht (by grind)) .opening
      simpa [separated_concat] using this
  | paramNext kind params ht hparams =>
    obtain ⟨hx, rfl⟩ := expect hfeed
    rw [List.append_assoc]
    exact focusOn ho (.paramRead kind params ht hparams hx)
  | blockOpen =>
    obtain ⟨hterm, rfl⟩ := expect hfeed
    rw [eq_sign hfits hterm rfl]
    exact openTo (.block ho .nil) .statements
  | elseOpen =>
    simp only at hfeed
    split at hfeed <;> cases hfeed
    · next hterm =>
      rw [eq_sign hfits hterm rfl]
      exact openTo (.block ho .nil) .statements
    · next hterm =>
      rw [eq_sign hfits hterm rfl]
      exact focusOn ho (.operand (.start (.ifCondition (by decide))))
  | statementName ht =>
    -- only now is it clear whether the name starts an assignment, an element or an expression
    simp only at hfeed
    split at hfeed
    · next hterm =>
      cases hfeed
      rw [eq_sign hfits hterm rfl]
      exact focusOn ho (.operand (.start (.value ht)))
    · next hterm =>
      cases hfeed
      rw [eq_sign hfits hterm rfl]
      exact focusOn ho (.operand (.start (.firstIndex ht)))
    · next hterm =>
      cases hfeed
      rw [eq_sign hfits hterm rfl]
      exact focusOn ho (.argumentsOpen (.start .effect) ht)
    · exact feedAfterOperand ho (.start .effect) (.ident ht) hfits hfeed
  | statementElement hi =>
    simp only at hfeed
    split at hfeed
    · next hterm =>
      cases hfeed
      rw [eq_sign hfits hterm rfl]
      exact focusOn ho (.operand (.start (.elementValue hi)))
    · -- the element was an operand after all
      obtain ⟨indices, ht, hone, htwo, hindices⟩ := hi
      exact feedAfterOperand ho (.start .effect) (.access indices ht hone htwo hindices) hfits hfeed
  | operand hh => exact feedOperand ho hh hfits hfeed
  | argumentsOpen hh ht =>
    simp only at hfeed
    split at hfeed
    · next hterm =>
      cases hfeed
      rw [eq_sign hfits hterm rfl]
      have := focusOn ho (.afterOperand hh (.call [] ht (by simp)))
      simpa [separated] using this
    · exact feedOperand ho (hh.enter (.arguments ht .nil)) hfits hfeed
  | operandName hh ht =>
    simp only at hfeed
    split at hfeed
    · next hterm =>
      cases hfeed
      rw [eq_sign hfits hterm rfl]
      have := focusOn ho (.argumentsOpen hh ht)
      simpa using this
    · next hterm =>
      cases hfeed
      rw [eq_sign hfits hterm rfl]
      have := focusOn ho (.operand (hh.enter (.firstIndex ht)))
      simpa [Parser.enter] using this
    · exact feedAfterOperand ho hh (.ident ht) hfits hfeed
  | afterOperand hh hx => exact feedAfterOperand ho hh hx hfits hfeed

/-- The source may end where the open constructs are the program and nothing in it. -/
theorem finish {body : List Node} (hp : Consumed p ts) (hfinish : p.finish = some body) :
    Derives ts body := by
  obtain ⟨ho, hf⟩ := hp
  have hprogram : ∀ {us done}, Open .statement [.program done] us → Derives us done.reverse := by
    rintro us done ⟨hts⟩
    exact hts
  -- in all other states the parser is in the middle of a statement
  unfold Parser.finish at hfinish
  generalize p.focus = focus at hf hfinish
  cases hf with
  | opening | statements =>
    rw [List.append_nil]
    simp only at hfinish
    split at hfinish
    · next hframes =>
      cases hfinish
      exact hprogram (hframes ▸ ho)
    · cases hfinish
  | ended hb =>
    simp only at hfinish
    split at hfinish
    · next hframes =>
      cases hfinish
      exact hprogram (hframes ▸ ho.complete hb.of_block)
    · cases hfinish
  | _ => cases hfinish

end Consumed

/-! ## A whole source -/

section LongExtent

variable {use : Use} {u : Terminal}

theorem longExtent_feedOperand (hfeed : p.feedOperand h t = some q) :
    q.longExtent = p.longExtent := by
  grind [Parser.feedOperand, Parser.enter, Parser.focusOn]

theorem longExtent_feedUse (hfeed : p.feedUse use e u = some q) :
    q.longExtent = p.longExtent := by
  unfold Parser.feedUse at hfeed
  split at hfeed <;> cases hfeed <;> rfl

theorem longExtent_feedClose (hfeed : p.feedClose h e u = some q) :
    q.longExtent = p.longExtent := by
  unfold Parser.feedClose at hfeed
  split at hfeed
  · exact longExtent_feedUse hfeed
  · simp only at hfeed
    split at hfeed <;> cases hfeed <;> rfl

theorem longExtent_feedAfterOperand (hfeed : p.feedAfterOperand x h t = some q) :
    q.longExtent = p.longExtent := by
  grind [Parser.feedAfterOperand, longExtent_feedClose, Parser.focusOn]

theorem longExtent_feedStatement (hfeed : p.feedStatement t = some q) :
    q.longExtent = p.longExtent := by
  grind [Parser.feedStatement, longExtent_feedOperand, Parser.openTo, Parser.focusOn]

theorem longExtent_feedEnded {b : Node} (hfeed : p.feedEnded b t = some q) :
    q.longExtent = p.longExtent := by
  unfold Parser.feedEnded at hfeed
  split at hfeed
  · split at hfeed <;> cases hfeed
    rfl
  · exact longExtent_feedStatement (p := p.finishStatement b) hfeed

theorem longExtent_feedExtent {header : ArrayHeader} {next : ArrayHeader → Focus}
    (hfeed : p.feedExtent header t next = some q) (hlong : q.longExtent = none) :
    p.longExtent = none := by
  unfold Parser.feedExtent at hfeed
  split at hfeed
  · simp only at hfeed
    split at hfeed <;> cases hfeed
    · simp only at hlong
      cases hp : p.longExtent with
      | none => rfl
      | some n =>
        rw [hp] at hlong
        cases hlong
    · exact hlong
  · cases hfeed

/-- Once an extent was too long, it stays noted. -/
theorem longExtent_of_feed (hfeed : p.feed t = some q) (hlong : q.longExtent = none) :
    p.longExtent = none := by
  grind [Parser.feed, longExtent_feedStatement, longExtent_feedEnded, longExtent_feedOperand,
    longExtent_feedAfterOperand, longExtent_feedExtent, Parser.finishStatement, Parser.openTo,
    Parser.enter, Parser.focusOn, Parser.expect, Option.map_eq_some_iff]

theorem Reads.longExtent (hreads : Reads p ts q) (hlong : q.longExtent = none) :
    p.longExtent = none := by
  induction hreads with
  | nil => exact hlong
  | cons _ hfeed _ ih => exact longExtent_of_feed hfeed (ih hlong)

end LongExtent

theorem Consumed.reads (hp : Consumed p us) (hreads : Reads p ts q) (hfits : ∀ t ∈ ts, t.Fits)
    (hlong : q.longExtent = none) : Consumed q (us ++ ts) := by
  -- an extent that is too long stays noted, so there was none at any step
  induction hreads generalizing us with
  | nil =>
    rw [List.append_nil]
    exact hp
  | @cons p r q t ts haccepts hfeed hrest ih =>
    rw [List.forall_mem_cons] at hfits
    have hstep := hp.feed hfits.1 hfeed (hrest.longExtent hlong)
    have hall := ih hstep hfits.2 hlong
    rwa [List.append_assoc] at hall

theorem consumed_initial : Consumed Parser.initial [] :=
  .mk (p := Parser.initial) (.program .nil) .opening

/-- A source that the parser accepts is made of tokens that derive the program it gives. -/
theorem exists_derives {source : String} {program : Node} (h : parse source = .ok program) :
    ∃ ts body, program = .program body ∧ Derives ts body ∧ (∀ t ∈ ts, t.Fits) ∧
      Spread source.toList ts := by
  unfold parse parseChars at h
  split at h
  · cases h
  · cases h
  · next p last hdone =>
    obtain ⟨ts, hreads, hfits, hspread⟩ := exists_reads hdone
    split at h
    · cases h
    · cases h
    · next body hfinish hlong =>
      cases h
      have hp := consumed_initial.reads hreads hfits hlong
      exact ⟨ts, body, rfl, hp.finish hfinish, hfits, hspread⟩

/-- The tree of a source has the shape of the grammar. Its names may be reserved words, since those
are reserved only where the grammar can use them. -/
theorem isProgram_of_parse {source : String} {program : Node} (h : parse source = .ok program) :
    IsProgram (fun name => Terminal.IsName name.toList) program := by
  obtain ⟨ts, body, rfl, hderives, hfits, -⟩ := exists_derives h
  refine hderives.isProgram fun t ht => ⟨hfits t ht, fun hident => ?_⟩
  have hfit := hfits t ht
  rw [Token.Fits, hident] at hfit
  rwa [label, String.toList_ofList]

end MiniAlgol.Source
