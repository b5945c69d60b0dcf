import MiniAlgol.Proofs.Source.Lexing
import MiniAlgol.Source.Parser

/-!
# The grammar

What sequences of tokens are expressions and statements, and the tree of each. `Phrase` has a
constructor for every form of expression and `Clause` one for every form of statement. A repetition
of the form `x (op x)*` is left recursive here, which is how its tree associates.
-/

namespace MiniAlgol.Source

/-! ## Tokens of the grammar -/

/-- The text of a token as a word. -/
def label (t : Token) : String :=
  String.ofList t.text

/-- The token of a terminal that has one spelling. -/
def sign (t : Terminal) : Token :=
  ⟨t, t.spelling⟩

/-- The token of a reserved word. -/
abbrev word (k : Keyword) : Token :=
  sign (.keyword k)

/-- A terminal that has one spelling. -/
def isFixed : Terminal → Bool
  | .ident | .compareOp | .addOp | .mulOp | .realLit | .intLit | .stringLit => false
  | _ => true

theorem eq_sign {t : Token} {u : Terminal} (hfits : t.Fits) (ht : t.terminal = u)
    (hfixed : isFixed u) : t = sign u := by
  subst ht
  obtain ⟨t, text⟩ := t
  have htext : text = t.spelling := by
    cases t <;> first | exact hfits | cases hfixed
  rw [sign, htext]

/-- The reserved word that declares a kind of routine. -/
def routineWord : RoutineKind → Keyword
  | .function => .function
  | .procedure => .procedure

/-- The digits of a numeral. -/
def digitsOf (t : Token) : List Nat :=
  t.text.filterMap Text.decimalDigit?

/-- Sequences of tokens with a comma between each two. -/
def separated (parts : List (List Token)) : List Token :=
  List.intercalate [sign .comma] parts

/-- Sequences of tokens with a comma after each. -/
def listed (parts : List (List Token)) : List Token :=
  parts.flatMap (· ++ [sign .comma])

theorem separated_concat (parts : List (List Token)) (last : List Token) :
    separated (parts ++ [last]) = listed parts ++ last := by
  induction parts with
  | nil => simp [separated, listed]
  | cons part parts ih =>
    have hcons : separated (part :: (parts ++ [last]))
        = part ++ sign .comma :: separated (parts ++ [last]) := by
      cases parts <;> simp [separated, List.intercalate]
    rw [List.cons_append, hcons, ih]
    simp [listed]

theorem listed_concat (parts : List (List Token)) (last : List Token) :
    listed (parts ++ [last]) = listed parts ++ last ++ [sign .comma] := by
  simp [listed]

theorem mem_separated_of_mem {parts : List (List Token)} {part : List Token} {t : Token}
    (hpart : part ∈ parts) (ht : t ∈ part) : t ∈ separated parts := by
  induction parts with
  | nil => cases hpart
  | cons first parts ih =>
    rcases List.mem_cons.1 hpart with rfl | hpart
    · cases parts <;> simp [separated, List.intercalate_cons_cons, ht]
    · have hne : parts ≠ [] := List.ne_nil_of_mem hpart
      rw [separated, List.intercalate_cons_of_ne_nil hne]
      exact List.mem_append_right _ (ih hpart)

theorem mem_of_mem_separated {parts : List (List Token)} {t : Token} (ht : t ∈ separated parts) :
    t = sign .comma ∨ ∃ part ∈ parts, t ∈ part := by
  induction parts with
  | nil => cases ht
  | cons first parts ih =>
    by_cases hne : parts = []
    · subst hne
      rw [separated, List.intercalate_singleton] at ht
      exact .inr ⟨first, List.mem_cons_self, ht⟩
    · rw [separated, List.intercalate_cons_of_ne_nil hne, List.mem_append, List.mem_append,
        List.mem_singleton] at ht
      rcases ht with (ht | ht) | ht
      · exact .inr ⟨first, List.mem_cons_self, ht⟩
      · exact .inl ht
      · rcases ih ht with ht | ⟨part, hpart, ht⟩
        · exact .inl ht
        · exact .inr ⟨part, List.mem_cons_of_mem _ hpart, ht⟩

/-! ## Expressions -/

theorem literal?_ident {t : Token} (ht : t.terminal = .ident) : literal? t = none := by
  unfold literal?
  rw [ht]

theorem exists_of_literal? {t : Token} {x : Node} (hx : literal? t = some x) :
    t.terminal ≠ .ident ∧ ∃ text kind : String, x = .literal text kind := by
  refine ⟨fun ht => ?_, ?_⟩
  · rw [literal?_ident ht] at hx
    cases hx
  · unfold literal? at hx
    split at hx
    all_goals cases hx
    all_goals exact ⟨_, _, rfl⟩

/-- The levels of expressions: operations of each class, and single operands. -/
inductive Level where
  | of (cls : BinaryClass)
  | primary

/-- The level of the right operands of a class of operators. -/
def operandLevel : BinaryClass → Level
  | .comparison => .of .additive
  | .additive => .of .multiplicative
  | .multiplicative => .primary

/-- The level of whole expressions. -/
abbrev Level.whole : Level := .of .comparison

/-- The tokens are an expression of the level, with this tree. -/
inductive Phrase : Level → List Token → Node → Prop where
  | literal {t : Token} {x : Node} (hx : literal? t = some x) : Phrase .primary [t] x
  | ident {t : Token} (ht : t.terminal = .ident) : Phrase .primary [t] (.ident (label t))
  | group {ts : List Token} {e : Node} (he : Phrase .whole ts e) :
      Phrase .primary (sign .leftParen :: (ts ++ [sign .rightParen])) e
  | call {t : Token} (args : List (List Token × Node)) (ht : t.terminal = .ident)
      (hargs : ∀ a ∈ args, Phrase .whole a.1 a.2) :
      Phrase .primary
        (t :: sign .leftParen :: (separated (args.map Prod.fst) ++ [sign .rightParen]))
        (.call (label t) (args.map Prod.snd))
  | access {t : Token} (indices : List (List Token × Node)) (ht : t.terminal = .ident)
      (hone : indices ≠ []) (htwo : indices.length ≤ 2)
      (hindices : ∀ i ∈ indices, Phrase .whole i.1 i.2) :
      Phrase .primary
        (t :: sign .leftSquare :: (separated (indices.map Prod.fst) ++ [sign .rightSquare]))
        (.arrayAccess (label t) (indices.map Prod.snd))
  | operand {cls : BinaryClass} {ts : List Token} {e : Node}
      (he : Phrase (operandLevel cls) ts e) : Phrase (.of cls) ts e
  | binary {cls : BinaryClass} {ls rs : List Token} {op : Token} {l r : Node}
      (hl : Phrase (.of cls) ls l) (hop : operatorClass? op.terminal = some cls)
      (hr : Phrase (operandLevel cls) rs r) :
      Phrase (.of cls) (ls ++ op :: rs) (.binary cls (label op) l r)

/-! ## Statements -/

/-- What a place of the grammar takes: any statement, a conditional or a block, or a block. -/
inductive Category where
  | statement
  | branch
  | block
  deriving DecidableEq

/-- The initial elements of an array. -/
def initializer : Option (List (List Token × Node)) → List Token
  | none => []
  | some elements =>
    sign .equal :: sign .leftSquare ::
      (separated (elements.map Prod.fst) ++ [sign .rightSquare])

/-- A numeral that may be an extent. -/
structure IsExtent (t : Token) : Prop where
  intLit : t.terminal = .intLit
  short : (digitsOf t).length ≤ Numeral.maxDigits

/-- The value of an extent. -/
def extentOf (t : Token) : Int :=
  Numeral.ofDigits (digitsOf t)

/-- The tokens are a statement that the category takes, with this tree. -/
inductive Clause : Category → List Token → Node → Prop where
  | varDecl {k : Keyword} {tag : Tag} {t : Token} (hk : k.tag? = some tag)
      (ht : t.terminal = .ident) :
      Clause .statement [word k, t, sign .semicolon] (.varDecl tag (label t) .missing)
  | varInit {k : Keyword} {tag : Tag} {t : Token} {es : List Token} {e : Node}
      (hk : k.tag? = some tag) (ht : t.terminal = .ident) (he : Phrase .whole es e) :
      Clause .statement (word k :: t :: sign .equal :: (es ++ [sign .semicolon]))
        (.varDecl tag (label t) e)
  | arrayDecl {k : Keyword} {elem : Tag} {t : Token} (extents : List Token)
      (init : Option (List (List Token × Node))) (hk : k.tag? = some elem)
      (ht : t.terminal = .ident) (hone : extents ≠ []) (htwo : extents.length ≤ 2)
      (hextents : ∀ d ∈ extents, IsExtent d)
      (hinit : ∀ x ∈ init.getD [], Phrase .whole x.1 x.2) :
      Clause .statement
        (word .array :: t :: sign .colon :: word k :: sign .leftSquare ::
          (separated (extents.map ([·])) ++ sign .rightSquare ::
            (initializer init ++ [sign .semicolon])))
        (.arrayDecl (label t) elem (extents.map extentOf) (init.map (·.map Prod.snd)))
  | assign {t : Token} {es : List Token} {e : Node} (ht : t.terminal = .ident)
      (he : Phrase .whole es e) :
      Clause .statement (t :: sign .becomes :: (es ++ [sign .semicolon])) (.assign (label t) e)
  | indexAssign {t : Token} {es : List Token} {e : Node} (indices : List (List Token × Node))
      (ht : t.terminal = .ident) (hone : indices ≠ []) (htwo : indices.length ≤ 2)
      (hindices : ∀ i ∈ indices, Phrase .whole i.1 i.2) (he : Phrase .whole es e) :
      Clause .statement
        (t :: sign .leftSquare :: (separated (indices.map Prod.fst) ++ sign .rightSquare ::
          sign .becomes :: (es ++ [sign .semicolon])))
        (.indexAssign (label t) (indices.map Prod.snd) e)
  | ifThen {c : Category} {cs bs : List Token} {condition b : Node} (hc : c ≠ .block)
      (hcondition : Phrase .whole cs condition) (hb : Clause .block bs b) :
      Clause c (word .if :: (cs ++ word .then :: bs)) (.ifStmt condition b .missing)
  | ifElse {c : Category} {cs bs es : List Token} {condition b e : Node} (hc : c ≠ .block)
      (hcondition : Phrase .whole cs condition) (hb : Clause .block bs b)
      (he : Clause .branch es e) :
      Clause c (word .if :: (cs ++ word .then :: (bs ++ word .else :: es)))
        (.ifStmt condition b e)
  | whileStmt {cs bs : List Token} {condition b : Node} (hcondition : Phrase .whole cs condition)
      (hb : Clause .block bs b) :
      Clause .statement (word .while :: (cs ++ word .do :: bs)) (.whileStmt condition b)
  | routine {t : Token} {bs : List Token} {b : Node} (kind : RoutineKind) (params : List Token)
      (ht : t.terminal = .ident) (hparams : ∀ x ∈ params, x.terminal = .ident)
      (hb : Clause .statement bs b) :
      Clause .statement
        (word (routineWord kind) :: t :: sign .leftParen ::
          (separated (params.map ([·])) ++ sign .rightParen :: bs))
        (.routineDecl kind (label t) (params.map fun x => .str (label x)) (Parser.routineBody b))
  | returnStmt {es : List Token} {e : Node} (he : Phrase .whole es e) :
      Clause .statement (word .return :: (es ++ [sign .semicolon])) (.returnStmt e)
  | exprStmt {es : List Token} {e : Node} (he : Phrase .whole es e) :
      Clause .statement (es ++ [sign .semicolon]) (.exprStmt e)
  | block {c : Category} (body : List (List Token × Node))
      (hbody : ∀ s ∈ body, Clause .statement s.1 s.2) :
      Clause c (word .begin :: (body.flatMap Prod.fst ++ [word .end])) (.block (body.map Prod.snd))

/-- The tokens are statements in a row, with these trees. -/
def Derives (ts : List Token) (body : List Node) : Prop :=
  ∃ parts : List (List Token × Node), (∀ s ∈ parts, Clause .statement s.1 s.2) ∧
    ts = parts.flatMap Prod.fst ∧ body = parts.map Prod.snd

theorem Derives.nil : Derives [] [] :=
  ⟨[], by simp, rfl, rfl⟩

theorem Derives.concat {ts us : List Token} {body : List Node} {s : Node} (hts : Derives ts body)
    (hs : Clause .statement us s) : Derives (ts ++ us) (body ++ [s]) := by
  obtain ⟨parts, hparts, rfl, rfl⟩ := hts
  refine ⟨parts ++ [(us, s)], ?_, by simp, by simp⟩
  intro x hx
  rcases List.mem_append.1 hx with hx | hx
  · exact hparts x hx
  · rw [List.mem_singleton.1 hx]
    exact hs

/-- A block is taken wherever a statement of a category is. -/
theorem Clause.of_derives {c : Category} {ts : List Token} {body : List Node}
    (hts : Derives ts body) : Clause c (word .begin :: (ts ++ [word .end])) (.block body) := by
  obtain ⟨parts, hparts, rfl, rfl⟩ := hts
  exact .block parts hparts

end MiniAlgol.Source
