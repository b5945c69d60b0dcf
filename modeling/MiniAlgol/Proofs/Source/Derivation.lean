import MiniAlgol.Proofs.Source.Literals
import MiniAlgol.Proofs.Source.Soundness
import Mathlib

/-!
# Derivations

The grammar as data: every `Rule` has a `Pattern`, and a `Derivation` is a tree of rules over
tokens in which the children of each node match the pattern of its rule. Its `image` is the program
tree that it stands for, made from the leaves up. An accepted text is the text of the tokens of a
derivation, and its program is the image of that derivation (`exists_derivation`).

Unlike `Phrase` and `Clause`, the rules have repetitions and optional parts, so that a row of
operands is one node and its association is left to the image. `Gives` says what a pattern can
derive and what items that gives to the rule it is part of; each construct of the grammar is
followed through it.
-/

namespace MiniAlgol.Source

/-! ## Rules -/

/-- The names of the rules. -/
inductive Rule where
  | program
  | statement
  | varDecl
  | varType
  | arrayDecl
  | arrayInit
  | assignment
  | indexAssignment
  | ifStmt
  | whileStmt
  | routineDecl (kind : RoutineKind)
  | paramList
  | returnStmt
  | exprStmt
  | block
  | expression
  /-- Operands with operators of one class between them. -/
  | operation (cls : BinaryClass)
  | primary
  | ident
  | call
  | arrayAccess
  | argList
  | literal
  deriving DecidableEq

/-- What can stand in a place of the grammar. -/
inductive Pattern where
  | token (t : Terminal)
  | rule (r : Rule)
  | seq (parts : List Pattern)
  | alt (choices : List Pattern)
  | opt (p : Pattern)
  | many (p : Pattern)

namespace Pattern

abbrev word (k : Keyword) : Pattern :=
  .token (.keyword k)

/-- One or more, with commas between them. -/
def commaList (p : Pattern) : Pattern :=
  .seq [p, .many (.seq [.token .comma, p])]

/-- One, or two with a comma between them. -/
def oneOrTwo (p : Pattern) : Pattern :=
  .seq [p, .opt (.seq [.token .comma, p])]

end Pattern

/-- The terminal of the operators of a class. -/
def operatorTerminal : BinaryClass → Terminal
  | .comparison => .compareOp
  | .additive => .addOp
  | .multiplicative => .mulOp

/-- The rule of the operands of a class. -/
def operandRule : BinaryClass → Rule
  | .comparison => .operation .additive
  | .additive => .operation .multiplicative
  | .multiplicative => .primary

/-- The right side of a rule. -/
def Rule.pattern : Rule → Pattern
  | program => .many (.rule statement)
  | statement =>
    .alt [.rule varDecl, .rule arrayDecl, .rule assignment, .rule indexAssignment, .rule ifStmt,
      .rule whileStmt, .rule (routineDecl .function), .rule (routineDecl .procedure),
      .rule returnStmt, .rule exprStmt, .rule block]
  | varDecl =>
    .seq [.rule varType, .token .ident, .opt (.seq [.token .equal, .rule expression]),
      .token .semicolon]
  | varType => .alt [.word .int, .word .double, .word .str, .word .bool]
  | arrayDecl =>
    .seq [.word .array, .token .ident, .token .colon, .rule varType, .token .leftSquare,
      .oneOrTwo (.token .intLit), .token .rightSquare,
      .opt (.seq [.token .equal, .rule arrayInit]), .token .semicolon]
  | arrayInit =>
    .seq [.token .leftSquare, .opt (.commaList (.rule expression)), .token .rightSquare]
  | assignment => .seq [.token .ident, .token .becomes, .rule expression, .token .semicolon]
  | indexAssignment =>
    .seq [.token .ident, .token .leftSquare, .oneOrTwo (.rule expression), .token .rightSquare,
      .token .becomes, .rule expression, .token .semicolon]
  | ifStmt =>
    .seq [.word .if, .rule expression, .word .then, .rule block,
      .opt (.seq [.word .else, .alt [.rule ifStmt, .rule block]])]
  | whileStmt => .seq [.word .while, .rule expression, .word .do, .rule block]
  | routineDecl kind =>
    .seq [.word (routineWord kind), .token .ident, .token .leftParen, .opt (.rule paramList),
      .token .rightParen, .rule statement]
  | paramList => .commaList (.token .ident)
  | returnStmt => .seq [.word .return, .rule expression, .token .semicolon]
  | exprStmt => .seq [.rule expression, .token .semicolon]
  | block => .seq [.word .begin, .many (.rule statement), .word .end]
  | expression => .rule (operation .comparison)
  | operation cls =>
    .seq [.rule (operandRule cls),
      .many (.seq [.token (operatorTerminal cls), .rule (operandRule cls)])]
  | primary =>
    .alt [.rule literal, .rule call, .rule arrayAccess, .rule ident,
      .seq [.token .leftParen, .rule expression, .token .rightParen]]
  | ident => .token .ident
  | call => .seq [.token .ident, .token .leftParen, .opt (.rule argList), .token .rightParen]
  | arrayAccess =>
    .seq [.token .ident, .token .leftSquare, .oneOrTwo (.rule expression), .token .rightSquare]
  | argList => .commaList (.rule expression)
  | literal =>
    .alt [.token .realLit, .token .intLit, .token .stringLit, .word .true, .word .false]

/-! ## Trees of rules -/

/-- A tree of rules over tokens. -/
inductive Derivation where
  | leaf (t : Token)
  | node (r : Rule) (children : List Derivation)

mutual

/-- The tokens of a derivation from left to right. -/
def Derivation.tokens : Derivation → List Token
  | .leaf t => [t]
  | .node _ ds => tokensOf ds

/-- The tokens of derivations in a row. -/
def tokensOf : List Derivation → List Token
  | [] => []
  | d :: ds => d.tokens ++ tokensOf ds

end

/-- The derivations in a row have the pattern, and below each node the children have the pattern
of its rule. -/
inductive Matches : Pattern → List Derivation → Prop where
  | token (t : Token) : Matches (.token t.terminal) [.leaf t]
  | rule {r : Rule} {ds : List Derivation} (h : Matches r.pattern ds) :
      Matches (.rule r) [.node r ds]
  | seqNil : Matches (.seq []) []
  | seqCons {p : Pattern} {ps : List Pattern} {ds es : List Derivation} (hp : Matches p ds)
      (hps : Matches (.seq ps) es) : Matches (.seq (p :: ps)) (ds ++ es)
  | alt {p : Pattern} {ps : List Pattern} {ds : List Derivation} (hmem : p ∈ ps)
      (hp : Matches p ds) : Matches (.alt ps) ds
  | optNone {p : Pattern} : Matches (.opt p) []
  | optSome {p : Pattern} {ds : List Derivation} (hp : Matches p ds) : Matches (.opt p) ds
  | manyNil {p : Pattern} : Matches (.many p) []
  | manyCons {p : Pattern} {ds es : List Derivation} (hp : Matches p ds)
      (hps : Matches (.many p) es) : Matches (.many p) (ds ++ es)

/-! ## Images -/

/-- What a derivation stands for in the rule around it. -/
inductive Item where
  | token (t : Token)
  | tag (tag : Tag)
  | node (n : Node)
  | nodes (ns : List Node)
  | names (ns : List String)

namespace Item

def token? : Item → Option Token
  | token t => some t
  | _ => none

def node? : Item → Option Node
  | node n => some n
  | _ => none

def nodes? : Item → Option (List Node)
  | nodes ns => some ns
  | _ => none

end Item

/-- The trees of items that are trees. -/
def nodesOf (items : List Item) : Option (List Node) :=
  items.mapM Item.node?

/-- Operators and operands after a first operand, associated to the left. -/
def foldLeft (cls : BinaryClass) : Node → List Item → Option Node
  | left, [] => some left
  | left, .token op :: .node right :: items =>
    foldLeft cls (.binary cls (label op) left right) items
  | _, _ => none

namespace Rule

/-- Whether a rule counts the terminal among its items. Reserved words and signs are there for the
eye only, but for the values of the truth literals and the names of the types. -/
def keeps (r : Rule) : Terminal → Bool
  | .keyword .true | .keyword .false => true
  | t => r == varType || !isFixed t

/-- Whether a node of the rule with a single item is that item. -/
def inlined : Rule → Bool
  | statement | expression | operation _ | primary => true
  | _ => false

/-- What a rule makes of its items. -/
def construct : Rule → List Item → Option Item
  | program, items => (nodesOf items).map fun body => .node (.program body)
  | block, items => (nodesOf items).map fun body => .node (.block body)
  | varType, [.token t] => (Tag.ofName? (label t)).map .tag
  | varDecl, [.tag tag, .token t] => some (.node (.varDecl tag (label t) .missing))
  | varDecl, [.tag tag, .token t, .node e] => some (.node (.varDecl tag (label t) e))
  | arrayDecl, .token t :: .tag elem :: items => do
    -- the extents are the numerals among the items, the initial elements the list
    let extents ← (items.filterMap Item.token?).mapM fun d =>
      (Numeral.readInteger (label d)).toOption
    return .node (.arrayDecl (label t) elem extents (items.filterMap Item.nodes?).getLast?)
  | arrayInit, items => (nodesOf items).map .nodes
  | assignment, [.token t, .node e] => some (.node (.assign (label t) e))
  | indexAssignment, .token t :: items => do
    let nodes ← nodesOf items
    let value ← nodes.getLast?
    return .node (.indexAssign (label t) nodes.dropLast value)
  | ifStmt, [.node c, .node b] => some (.node (.ifStmt c b .missing))
  | ifStmt, [.node c, .node b, .node e] => some (.node (.ifStmt c b e))
  | whileStmt, [.node c, .node b] => some (.node (.whileStmt c b))
  | routineDecl kind, [.token t, .node b] =>
    some (.node (.routineDecl kind (label t) [] (Parser.routineBody b)))
  | routineDecl kind, [.token t, .names params, .node b] =>
    some (.node (.routineDecl kind (label t) (params.map .str) (Parser.routineBody b)))
  | paramList, items => (items.mapM Item.token?).map fun ts => .names (ts.map label)
  | returnStmt, [.node e] => some (.node (.returnStmt e))
  | exprStmt, [.node e] => some (.node (.exprStmt e))
  | operation cls, .node first :: items => (foldLeft cls first items).map .node
  | ident, [.token t] => some (.node (.ident (label t)))
  | call, [.token t] => some (.node (.call (label t) []))
  | call, [.token t, .nodes args] => some (.node (.call (label t) args))
  | arrayAccess, .token t :: items =>
    (nodesOf items).map fun indices => .node (.arrayAccess (label t) indices)
  | argList, items => (nodesOf items).map .nodes
  | literal, [.token t] => (literal? t).map .node
  | _, _ => none

/-- The item of a node with these items below it. -/
def build (r : Rule) (items : List Item) : Option Item :=
  match r.inlined, items with
  | true, [item] => some item
  | _, _ => r.construct items

end Rule

/-- Whether the derivation is a token that the rule around it does not count. -/
def Derivation.dropped (r : Rule) : Derivation → Bool
  | .leaf t => !r.keeps t.terminal
  | .node .. => false

mutual

/-- What the derivation stands for, if the numerals in it can be read. -/
def Derivation.image : Derivation → Option Item
  | .leaf t => some (.token t)
  | .node r ds => do r.build (← itemsOf r ds)

/-- The items that the derivations in a row give to the rule around them. -/
def itemsOf (r : Rule) : List Derivation → Option (List Item)
  | [] => some []
  | d :: ds => do
    let item ← d.image
    let items ← itemsOf r ds
    return if d.dropped r then items else item :: items

end

/-! ## What patterns give -/

theorem tokensOf_append (ds es : List Derivation) :
    tokensOf (ds ++ es) = tokensOf ds ++ tokensOf es := by
  induction ds with
  | nil => rfl
  | cons d ds ih => rw [List.cons_append, tokensOf, tokensOf, ih, List.append_assoc]

theorem itemsOf_append {r : Rule} {ds es : List Derivation} {items more : List Item}
    (hds : itemsOf r ds = some items) (hes : itemsOf r es = some more) :
    itemsOf r (ds ++ es) = some (items ++ more) := by
  induction ds generalizing items with
  | nil =>
    cases hds
    exact hes
  | cons d ds ih =>
    simp only [itemsOf, bind, pure, Option.bind_eq_some_iff, Option.some.injEq] at hds
    obtain ⟨item, hitem, rest, hrest, rfl⟩ := hds
    simp only [List.cons_append, itemsOf, hitem, ih hrest, bind, pure, Option.bind_some]
    split <;> rfl

/-- Derivations with the pattern have these tokens, and give these items to the rule `r` that
they stand in. -/
def Gives (r : Rule) (p : Pattern) (ts : List Token) (items : List Item) : Prop :=
  ∃ ds, Matches p ds ∧ tokensOf ds = ts ∧ itemsOf r ds = some items

variable {r s : Rule} {p q : Pattern} {ps qs : List Pattern} {ts us : List Token} {t : Token}
  {u : Terminal} {items more : List Item} {item : Item} {cls : BinaryClass}

namespace Gives

theorem rule (h : Gives s s.pattern ts items) (hitem : s.build items = some item) :
    Gives r (.rule s) ts [item] := by
  obtain ⟨ds, hds, rfl, hitems⟩ := h
  refine ⟨[.node s ds], .rule hds, by simp [tokensOf, Derivation.tokens], ?_⟩
  simp [itemsOf, Derivation.image, hitems, hitem, Derivation.dropped]

theorem kept (ht : t.terminal = u) (hr : r.keeps u) : Gives r (.token u) [t] [.token t] := by
  subst ht
  refine ⟨[.leaf t], .token t, rfl, ?_⟩
  simp [itemsOf, Derivation.image, Derivation.dropped, hr]

theorem alt (hmem : p ∈ ps) (hp : Gives r p ts items) : Gives r (.alt ps) ts items := by
  obtain ⟨ds, hds, hts, hitems⟩ := hp
  exact ⟨ds, .alt hmem hds, hts, hitems⟩

theorem optSome (hp : Gives r p ts items) : Gives r (.opt p) ts items := by
  obtain ⟨ds, hds, hts, hitems⟩ := hp
  exact ⟨ds, .optSome hds, hts, hitems⟩

theorem manyNil : Gives r (.many p) [] [] :=
  ⟨[], .manyNil, rfl, rfl⟩

theorem manyCons (hp : Gives r p ts items) (hps : Gives r (.many p) us more) :
    Gives r (.many p) (ts ++ us) (items ++ more) := by
  obtain ⟨ds, hds, rfl, hitems⟩ := hp
  obtain ⟨es, hes, rfl, hmore⟩ := hps
  exact ⟨ds ++ es, .manyCons hds hes, tokensOf_append ds es, itemsOf_append hitems hmore⟩

theorem nil : Gives r (.seq []) [] [] :=
  ⟨[], .seqNil, rfl, rfl⟩

theorem append (hp : Gives r p ts items) (hps : Gives r (.seq ps) us more) :
    Gives r (.seq (p :: ps)) (ts ++ us) (items ++ more) := by
  obtain ⟨ds, hds, rfl, hitems⟩ := hp
  obtain ⟨es, hes, rfl, hmore⟩ := hps
  exact ⟨ds ++ es, .seqCons hds hes, tokensOf_append ds es, itemsOf_append hitems hmore⟩

theorem last (hp : Gives r p ts items) : Gives r (.seq [p]) ts items := by
  rw [← List.append_nil ts, ← List.append_nil items]
  exact hp.append nil

/-- A token that the rule counts, before the rest of a sequence. -/
theorem token (ht : t.terminal = u) (hr : r.keeps u) (hps : Gives r (.seq ps) ts items) :
    Gives r (.seq (.token u :: ps)) (t :: ts) (.token t :: items) :=
  (kept ht hr).append hps

/-- A sign or a reserved word that the rule does not count, before the rest of a sequence. -/
theorem sign (hr : r.keeps u = false) (hps : Gives r (.seq ps) ts items) :
    Gives r (.seq (.token u :: ps)) (Source.sign u :: ts) items := by
  have hone : Gives r (.token u) [Source.sign u] [] := by
    refine ⟨[.leaf (Source.sign u)], .token (Source.sign u), rfl, ?_⟩
    simp [itemsOf, Derivation.image, Derivation.dropped, Source.sign, hr]
  exact hone.append hps

/-- The rest of a sequence, with an optional part left out. -/
theorem absent (hps : Gives r (.seq ps) ts items) : Gives r (.seq (.opt p :: ps)) ts items := by
  have hnone : Gives r (.opt p) [] [] := ⟨[], .optNone, rfl, rfl⟩
  exact hnone.append hps

theorem lastButAbsent (hp : Gives r p ts items) : Gives r (.seq [p, .opt q]) ts items := by
  rw [← List.append_nil ts, ← List.append_nil items]
  exact hp.append (absent nil)

/-- An optional sequence that is there, before the rest of the sequence. -/
theorem present (hps : Gives r (.seq (qs ++ ps)) ts items) :
    Gives r (.seq (.opt (.seq qs) :: ps)) ts items := by
  obtain ⟨ds, hds, rfl, hitems⟩ := hps
  have hsplit : ∀ ds, Matches (.seq (qs ++ ps)) ds →
      ∃ es fs, ds = es ++ fs ∧ Matches (.seq qs) es ∧ Matches (.seq ps) fs := by
    clear hds hitems ds
    induction qs with
    | nil => exact fun ds hds => ⟨[], ds, rfl, .seqNil, hds⟩
    | cons q qs ih =>
      intro ds hds
      cases hds with
      | @seqCons _ _ ds rest hq hrest =>
        obtain ⟨es, fs, rfl, hes, hfs⟩ := ih rest hrest
        exact ⟨ds ++ es, fs, by rw [List.append_assoc], .seqCons hq hes, hfs⟩
  obtain ⟨es, fs, rfl, hes, hfs⟩ := hsplit ds hds
  exact ⟨es ++ fs, .seqCons (.optSome hes) hfs, rfl, hitems⟩

/-- A repetition at the end of a sequence goes on. -/
theorem extend (h : Gives r (.seq [p, .many q]) ts items) (hq : Gives r q us more) :
    Gives r (.seq [p, .many q]) (ts ++ us) (items ++ more) := by
  obtain ⟨ds, hds, rfl, hitems⟩ := h
  obtain ⟨es, hes, rfl, hmore⟩ := hq
  refine ⟨ds ++ es, ?_, tokensOf_append ds es, itemsOf_append hitems hmore⟩
  have hmany : ∀ fs, Matches (.many q) fs → Matches (.many q) (fs ++ es) := by
    intro fs hfs
    generalize hpattern : Pattern.many q = pattern at hfs
    induction hfs with
    | manyNil =>
      cases hpattern
      have hlast := Matches.manyCons hes .manyNil
      rwa [List.append_nil] at hlast
    | manyCons hp _ _ ih =>
      cases hpattern
      rw [List.append_assoc]
      exact .manyCons hp (ih rfl)
    | _ => cases hpattern
  cases hds with
  | seqCons hp hps =>
    cases hps with
    | @seqCons _ _ fs _ hfs hnil =>
      cases hnil
      rw [List.append_nil, List.append_assoc]
      have hnew := Matches.seqCons hp (.seqCons (hmany fs hfs) .seqNil)
      rwa [List.append_nil] at hnew

/-! ### Lists -/

theorem separated_cons (part : List Token) (parts : List (List Token)) :
    separated (part :: parts) = part ++ parts.flatMap (Source.sign .comma :: ·) := by
  induction parts generalizing part with
  | nil => simp [separated]
  | cons next parts ih =>
    have hnext : separated (part :: next :: parts)
        = part ++ [Source.sign .comma] ++ separated (next :: parts) :=
      List.intercalate_cons_cons ..
    rw [hnext, ih]
    simp

variable {α : Type} {f : α → List Token} {g : α → Item} {xs : List α}

theorem many (hxs : ∀ x ∈ xs, Gives r p (f x) [g x]) :
    Gives r (.many p) (xs.flatMap f) (xs.map g) := by
  induction xs with
  | nil => exact manyNil
  | cons x xs ih =>
    rw [List.forall_mem_cons] at hxs
    exact manyCons hxs.1 (ih hxs.2)

theorem commaList (hr : r.keeps .comma = false) (hne : xs ≠ [])
    (hxs : ∀ x ∈ xs, Gives r p (f x) [g x]) :
    Gives r (.commaList p) (separated (xs.map f)) (xs.map g) := by
  obtain ⟨x, xs, rfl⟩ := List.exists_cons_of_ne_nil hne
  rw [List.forall_mem_cons] at hxs
  have hmore : ∀ y ∈ xs, Gives r (.seq [.token .comma, p]) (Source.sign .comma :: f y) [g y] := by
    intro y hy
    simpa using sign hr ((hxs.2 y hy).append nil)
  have hlist := hxs.1.append ((many hmore).append nil)
  rw [List.append_nil, List.append_nil] at hlist
  rwa [List.map_cons, separated_cons, List.flatMap_map]

theorem oneOrTwo (hr : r.keeps .comma = false) (hone : xs ≠ []) (htwo : xs.length ≤ 2)
    (hxs : ∀ x ∈ xs, Gives r p (f x) [g x]) :
    Gives r (.oneOrTwo p) (separated (xs.map f)) (xs.map g) := by
  match xs, hone, htwo, hxs with
  | [x], _, _, hxs =>
    have hx : Gives r p (f x) [g x] := hxs x (by simp)
    simpa [separated, Pattern.oneOrTwo] using hx.append (absent nil)
  | [x, y], _, _, hxs =>
    have hx : Gives r p (f x) [g x] := hxs x (by simp)
    have hy : Gives r p (f y) [g y] := hxs y (by simp)
    have hsecond : Gives r (.seq ([.token .comma, p] ++ [])) _ _ := sign hr (hy.append nil)
    simpa [separated, Pattern.oneOrTwo, List.intercalate] using hx.append hsecond.present

end Gives

/-! ## Expressions -/

theorem nodesOf_map {α : Type} (f : α → Node) (xs : List α) :
    nodesOf (xs.map fun x => .node (f x)) = some (xs.map f) := by
  rw [nodesOf, List.mapM_map]
  exact List.mapM_pure

theorem foldLeft_append {first left right : Node} {op : Token}
    (hleft : foldLeft cls first items = some left) :
    foldLeft cls first (items ++ [.token op, .node right])
      = some (.binary cls (label op) left right) := by
  fun_induction foldLeft cls first items with
  | case1 first =>
    cases hleft
    rfl
  | case2 first op' right' items ih => exact ih hleft
  | case3 => cases hleft

/-- The rule of a level of expressions. -/
def Level.rule : Level → Rule
  | .of cls => .operation cls
  | .primary => .primary

theorem rule_operandLevel (cls : BinaryClass) : (operandLevel cls).rule = operandRule cls := by
  cases cls <;> rfl

/-- The tokens are derived at a level and stand for the tree; at a level of operations the row of
operands is still open, so that it can go on. -/
def Stands (ts : List Token) (e : Node) : Level → Prop
  | .primary => ∀ r, Gives r (.rule .primary) ts [.node e]
  | .of cls => ∃ first items, Gives (.operation cls) (Rule.pattern (.operation cls)) ts
      (.node first :: items) ∧ foldLeft cls first items = some e

theorem Stands.gives {e : Node} {l : Level} (h : Stands ts e l) (r : Rule) :
    Gives r (.rule l.rule) ts [.node e] := by
  cases l with
  | primary => exact h r
  | of cls =>
    obtain ⟨first, items, hgives, hfold⟩ := h
    refine hgives.rule ?_
    -- a single operand stands for itself
    cases items with
    | nil => simpa [foldLeft, Rule.build, Rule.inlined] using hfold
    | cons item items => simp [Rule.build, Rule.construct, hfold]

theorem Stands.operand {e : Node} (h : Stands ts e (operandLevel cls)) : Stands ts e (.of cls) := by
  have hone := h.gives (.operation cls)
  rw [rule_operandLevel] at hone
  refine ⟨e, [], ?_, rfl⟩
  rw [← List.append_nil ts]
  exact hone.append (Gives.manyNil.append .nil)

theorem Stands.binary {ls rs : List Token} {op : Token} {left right : Node}
    (hleft : Stands ls left (.of cls)) (hop : operatorClass? op.terminal = some cls)
    (hright : Stands rs right (operandLevel cls)) :
    Stands (ls ++ op :: rs) (.binary cls (label op) left right) (.of cls) := by
  obtain ⟨first, items, hgives, hfold⟩ := hleft
  have hlast := hright.gives (.operation cls)
  rw [rule_operandLevel] at hlast
  have hterminal : op.terminal = operatorTerminal cls := by
    unfold operatorClass? at hop
    split at hop <;> cases hop <;> assumption
  have hkeeps : (Rule.operation cls).keeps (operatorTerminal cls) := by cases cls <;> rfl
  have hmore := hgives.extend (.token hterminal hkeeps (hlast.append .nil))
  rw [List.append_nil] at hmore
  exact ⟨first, _, hmore, foldLeft_append hfold⟩

theorem Gives.expression {e : Node} (h : Stands ts e .whole) :
    Gives r (.rule .expression) ts [.node e] :=
  .rule (h.gives .expression) rfl

/-- A rule that is one of the choices of another stands in its place. -/
theorem Gives.choice {choices : List Pattern} {context : Rule} (s : Rule)
    (hr : r.pattern = .alt choices) (hinlined : r.inlined) (hs : .rule s ∈ choices)
    (h : Gives s s.pattern ts items) (hitem : s.build items = some item) :
    Gives context (.rule r) ts [item] := by
  have hone : Gives r r.pattern ts [item] := by
    rw [hr]
    exact .alt hs (h.rule hitem)
  exact hone.rule (by simp [Rule.build, hinlined])

theorem Gives.literal {x : Node} (hx : literal? t = some x) :
    Gives .literal (Rule.pattern .literal) [t] [.token t] := by
  have hterminal : .token t.terminal ∈ [Pattern.token .realLit, .token .intLit, .token .stringLit,
      .word .true, .word .false] ∧ Rule.literal.keeps t.terminal := by
    unfold literal? at hx
    split at hx
    all_goals cases hx
    all_goals next heq => simp [heq, Rule.keeps, isFixed]
  exact .alt hterminal.1 (.kept rfl hterminal.2)

theorem Phrase.stands {l : Level} {e : Node} (h : Phrase l ts e) : Stands ts e l := by
  induction h with
  | literal hx =>
    intro r
    refine .choice .literal rfl rfl (by simp) (.literal hx) ?_
    simp [Rule.build, Rule.inlined, Rule.construct, hx]
  | ident ht =>
    intro r
    exact .choice .ident rfl rfl (by simp) (.kept ht rfl) rfl
  | group _ ih =>
    intro r
    exact .rule (.alt (by simp) (.sign rfl ((Gives.expression ih).append (.sign rfl .nil)))) rfl
  | @call t args ht _ ih =>
    intro r
    by_cases hargs : args = []
    · subst hargs
      exact .choice .call rfl rfl (by simp)
        (.token ht rfl (.sign rfl (.absent (.sign rfl .nil)))) rfl
    · have hlist : Gives .call (.opt (.rule .argList)) (separated (args.map Prod.fst))
          [.nodes (args.map Prod.snd)] := by
        refine .optSome (.rule (.commaList rfl hargs fun a ha => .expression (ih a ha)) ?_)
        simp [Rule.build, Rule.inlined, Rule.construct, nodesOf_map]
      exact .choice .call rfl rfl (by simp)
        (.token ht rfl (.sign rfl (hlist.append (.sign rfl .nil)))) rfl
  | access indices ht hone htwo _ ih =>
    intro r
    have hindices : Gives .arrayAccess (.oneOrTwo (.rule .expression)) _ _ :=
      .oneOrTwo rfl hone htwo fun i hi => .expression (ih i hi)
    refine .choice .arrayAccess rfl rfl (by simp)
      (.token ht rfl (.sign rfl (hindices.append (.sign rfl .nil)))) ?_
    simp [Rule.build, Rule.inlined, Rule.construct, nodesOf_map]
  | operand _ ih => exact ih.operand
  | binary _ hop _ ihl ihr => exact ihl.binary hop ihr

/-! ## Statements -/

/-- The pattern of what a place of the grammar takes. -/
def Category.pattern : Category → Pattern
  | .statement => .rule .statement
  | .branch => .alt [.rule .ifStmt, .rule .block]
  | .block => .rule .block

theorem Gives.phrase {e : Node} (h : Phrase .whole ts e) :
    Gives r (.rule .expression) ts [.node e] :=
  .expression h.stands

theorem Gives.varType {k : Keyword} {tag : Tag} (hk : k.tag? = some tag)
    (hps : Gives r (.seq ps) ts items) :
    Gives r (.seq (.rule .varType :: ps)) (word k :: ts) (.tag tag :: items) := by
  have hone : Gives .varType (Rule.pattern .varType) [word k] [.token (word k)] := by
    refine .alt (p := .word k) ?_ (.kept rfl ?_)
    · cases k <;> cases hk <;> simp
    · cases k <;> rfl
  have htag : Rule.varType.build [.token (word k)] = some (.tag tag) := by
    cases k <;> cases hk <;> rfl
  exact (hone.rule htag).append hps

theorem Gives.conditional {c : Category} (hc : c ≠ .block)
    (h : Gives .ifStmt (Rule.pattern .ifStmt) ts items)
    (hitem : Rule.ifStmt.build items = some item) : Gives r c.pattern ts [item] := by
  cases c with
  | statement => exact .choice .ifStmt rfl rfl (by simp) h hitem
  | branch => exact .alt (by simp) (h.rule hitem)
  | block => exact absurd rfl hc

theorem Gives.initializer {init : Option (List (List Token × Node))}
    (hinit : ∀ x ∈ init.getD [], Phrase .whole x.1 x.2) :
    Gives .arrayDecl (.opt (.seq [.token .equal, .rule .arrayInit])) (initializer init)
      ((init.map (·.map Prod.snd)).toList.map .nodes) := by
  cases init with
  | none => exact ⟨[], .optNone, rfl, rfl⟩
  | some elements =>
    refine .optSome (.sign rfl (.last ?_))
    by_cases hne : elements = []
    · subst hne
      exact .rule (.sign rfl (.absent (.sign rfl .nil))) rfl
    · have helements : Gives .arrayInit (.commaList (.rule .expression)) _ _ :=
        .commaList rfl hne fun x hx => .phrase (hinit x hx)
      refine .rule (.sign rfl (helements.optSome.append (.sign rfl .nil))) ?_
      simp [Rule.build, Rule.inlined, Rule.construct, nodesOf_map]

theorem mapM_readInteger {extents : List Token} (hextents : ∀ d ∈ extents, IsExtent d)
    (hfits : ∀ d ∈ extents, d.Fits) :
    extents.mapM (fun d => (Numeral.readInteger (label d)).toOption)
      = some (extents.map extentOf) := by
  induction extents with
  | nil => rfl
  | cons d extents ih =>
    rw [List.forall_mem_cons] at hextents hfits
    have hdigits : Terminal.IsDigits d.text := by
      have hd := hfits.1
      rwa [Token.Fits, hextents.1.intLit] at hd
    have hshort : ¬ Numeral.maxDigits < (digitsOf d).length := Nat.not_lt.2 hextents.1.short
    rw [digitsOf] at hshort
    rw [List.mapM_cons, ih hextents.2 hfits.2, label, readInteger_digits hdigits, if_neg hshort]
    rfl

theorem build_arrayDecl {extents : List Token} (t : Token) (elem : Tag)
    (init : Option (List Node)) (hextents : ∀ d ∈ extents, IsExtent d)
    (hfits : ∀ d ∈ extents, d.Fits) :
    Rule.arrayDecl.build (.token t :: .tag elem :: (extents.map .token ++ init.toList.map .nodes))
      = some (.node (.arrayDecl (label t) elem (extents.map extentOf) init)) := by
  have htokens : (extents.map Item.token ++ init.toList.map Item.nodes).filterMap Item.token?
      = extents := by
    cases init <;> simp [List.filterMap_map, Function.comp_def, Item.token?]
  have hnodes : (extents.map Item.token ++ init.toList.map Item.nodes).filterMap Item.nodes?
      = init.toList := by
    cases init <;> simp [List.filterMap_map, Function.comp_def, Item.nodes?]
  simp only [Rule.build, Rule.inlined, Rule.construct, htokens, hnodes,
    mapM_readInteger hextents hfits]
  cases init <;> rfl

/-- The statements in a row. -/
theorem Gives.statements {body : List (List Token × Node)}
    (hbody : ∀ s ∈ body, ∀ r, Gives r (.rule .statement) s.1 [.node s.2]) :
    Gives r (.many (.rule .statement)) (body.flatMap Prod.fst) (body.map fun s => .node s.2) :=
  .many fun s hs => hbody s hs r

theorem Clause.gives {c : Category} {n : Node} (h : Clause c ts n) (hts : ∀ t ∈ ts, t.Fits)
    (r : Rule) : Gives r c.pattern ts [.node n] := by
  induction h generalizing r with
  | varDecl hk ht =>
    exact .choice .varDecl rfl rfl (by simp)
      (.varType hk (.token ht rfl (.absent (.sign rfl .nil)))) rfl
  | varInit hk ht he =>
    exact .choice .varDecl rfl rfl (by simp)
      (.varType hk (.token ht rfl
        (.present (.sign rfl ((Gives.phrase he).append (.sign rfl .nil)))))) rfl
  | arrayDecl extents init hk ht hone htwo hextents hinit =>
    have hlist : Gives .arrayDecl (.oneOrTwo (.token .intLit)) _ (extents.map .token) :=
      .oneOrTwo rfl hone htwo fun d hd => .kept (hextents d hd).intLit rfl
    have hfits : ∀ d ∈ extents, d.Fits := fun d hd => by
      have hmem : d ∈ separated (extents.map ([·])) :=
        mem_separated_of_mem (List.mem_map_of_mem hd) List.mem_cons_self
      exact hts d (by simp [hmem])
    refine .choice .arrayDecl rfl rfl (by simp)
      (.sign rfl (.token ht rfl (.sign rfl (.varType hk (.sign rfl (hlist.append
        (.sign rfl ((Gives.initializer hinit).append (.sign rfl .nil))))))))) ?_
    rw [List.append_nil]
    exact build_arrayDecl _ _ _ hextents hfits
  | assign ht he =>
    exact .choice .assignment rfl rfl (by simp)
      (.token ht rfl (.sign rfl ((Gives.phrase he).append (.sign rfl .nil)))) rfl
  | @indexAssign t es e indices ht hone htwo hindices he =>
    have hlist : Gives .indexAssignment (.oneOrTwo (.rule .expression)) _ _ :=
      .oneOrTwo rfl hone htwo fun i hi => .phrase (hindices i hi)
    refine .choice .indexAssignment rfl rfl (by simp) (.token ht rfl (.sign rfl (hlist.append
      (.sign rfl (.sign rfl ((Gives.phrase he).append (.sign rfl .nil))))))) ?_
    have hnodes : nodesOf (indices.map (fun i => .node i.2) ++ [.node e])
        = some (indices.map Prod.snd ++ [e]) := by
      simpa [Function.comp_def] using nodesOf_map id (indices.map Prod.snd ++ [e])
    simp [Rule.build, Rule.inlined, Rule.construct, hnodes]
  | ifThen hc hcondition _ ih =>
    have hb := ih (fun t ht => hts t (by simp [ht])) .ifStmt
    exact .conditional hc (.sign rfl ((Gives.phrase hcondition).append
      (.sign rfl hb.lastButAbsent))) rfl
  | ifElse hc hcondition _ _ ihb ihe =>
    have hb := ihb (fun t ht => hts t (by simp [ht])) .ifStmt
    have he := ihe (fun t ht => hts t (by simp [ht])) .ifStmt
    exact .conditional hc (.sign rfl ((Gives.phrase hcondition).append
      (.sign rfl (hb.append (.present (.sign rfl he.last)))))) rfl
  | whileStmt hcondition _ ih =>
    have hb := ih (fun t ht => hts t (by simp [ht])) .whileStmt
    exact .choice .whileStmt rfl rfl (by simp) (.sign rfl ((Gives.phrase hcondition).append
      (.sign rfl hb.last))) rfl
  | routine kind params ht hparams _ ih =>
    have hb := ih (fun t ht => hts t (by simp [ht])) (.routineDecl kind)
    have hword : (Rule.routineDecl kind).keeps (.keyword (routineWord kind)) = false := by
      cases kind <;> rfl
    by_cases hne : params = []
    · subst hne
      exact .choice (.routineDecl kind) rfl rfl (by cases kind <;> simp)
        (.sign hword (.token ht rfl (.sign rfl (.absent (.sign rfl hb.last))))) rfl
    · have hlist : Gives (.routineDecl kind) (.opt (.rule .paramList)) 
          (separated (params.map ([·]))) [.names (params.map label)] := by
        refine .optSome (.rule (.commaList (g := .token) rfl hne fun x hx =>
          .kept (hparams x hx) rfl) ?_)
        have htokens : (params.map Item.token).mapM Item.token? = some params := by
          rw [List.mapM_map]
          exact List.mapM_pure.trans (by simp)
        simp only [Rule.build, Rule.inlined, Rule.construct, htokens, Option.map_some]
      refine .choice (.routineDecl kind) rfl rfl (by cases kind <;> simp)
        (.sign hword (.token ht rfl (.sign rfl (hlist.append (.sign rfl hb.last))))) ?_
      simp [Rule.build, Rule.inlined, Rule.construct]
  | returnStmt he =>
    exact .choice .returnStmt rfl rfl (by simp)
      (.sign rfl ((Gives.phrase he).append (.sign rfl .nil))) rfl
  | exprStmt he =>
    exact .choice .exprStmt rfl rfl (by simp) ((Gives.phrase he).append (.sign rfl .nil)) rfl
  | @block c body _ ih =>
    have hbody : ∀ s ∈ body, ∀ r, Gives r (.rule .statement) s.1 [.node s.2] := by
      intro s hs
      refine ih s hs fun t ht => hts t ?_
      have hmem : t ∈ body.flatMap Prod.fst := List.mem_flatMap.2 ⟨s, hs, ht⟩
      simp [hmem]
    have hgives : ∀ r, Gives r (.rule .block) _ [.node (.block (body.map Prod.snd))] := fun r => by
      refine .rule (.sign rfl ((Gives.statements hbody).append (.sign rfl .nil))) ?_
      simp [Rule.build, Rule.inlined, Rule.construct, nodesOf_map]
    cases c with
    | statement => exact .rule (.alt (by simp) (hgives _)) rfl
    | branch => exact .alt (by simp) (hgives r)
    | block => exact hgives r

/-! ## Accepted texts -/

/-- An accepted text is that of the tokens of a derivation of a program, each of which has the
pattern of its terminal, with only blanks and comments before, between and after them; and the
program is what the derivation stands for. -/
theorem exists_derivation {source : String} {program : Node} (h : parse source = .ok program) :
    ∃ d : Derivation, Matches (.rule .program) [d] ∧ Spread source.toList d.tokens ∧
      (∀ t ∈ d.tokens, t.Fits) ∧ d.image = some (.node program) := by
  obtain ⟨ts, body, rfl, ⟨parts, hparts, rfl, rfl⟩, hfits, hspread⟩ := exists_derives h
  have hstatements : ∀ s ∈ parts, ∀ r, Gives r (.rule .statement) s.1 [.node s.2] := by
    intro s hs
    exact (hparts s hs).gives fun t ht => hfits t (List.mem_flatMap.2 ⟨s, hs, ht⟩)
  obtain ⟨ds, hds, htokens, hitems⟩ := Gives.statements (r := .program) hstatements
  refine ⟨.node .program ds, .rule hds, ?_⟩
  rw [Derivation.tokens, htokens]
  refine ⟨hspread, hfits, ?_⟩
  simp [Derivation.image, hitems, Rule.build, Rule.inlined, Rule.construct, nodesOf_map]

/-- A text with a comment, and a row of operands that associates to the left. -/
theorem exists_derivation_commented :
    let program : Node := .program [.assign "x" (.binary .additive "-"
      (.binary .additive "-" (.literal "1" "int") (.ident "y")) (.ident "z"))]
    parse "x:=1-y-z; // then" = .ok program ∧
      ∃ d : Derivation, Matches (.rule .program) [d] ∧
        Spread "x:=1-y-z; // then".toList d.tokens ∧ (∀ t ∈ d.tokens, t.Fits) ∧
        d.image = some (.node program) := by
  intro program
  have hparse : parse "x:=1-y-z; // then" = .ok program := by cbv
  exact ⟨hparse, exists_derivation hparse⟩

end MiniAlgol.Source
