import MiniAlgol.Proofs.Source.Completeness
import MiniAlgol.Proofs.Source.Shape
import MiniAlgol.Proofs.Value.Digits

/-!
# Writing programs

`write` gives a program tree as a source text: its tokens in the order of the grammar, one blank
between each two, and parentheses only around an operand that binds more weakly than its place. The
parser gives the tree back (`parse_write`).
-/

namespace MiniAlgol.Source

/-! ## The tokens of a tree -/

/-- The characters of a label that is a word. -/
def charsOf : Label → List Char
  | .str s => s.toList
  | _ => []

/-- The token of a name. -/
def nameToken (name : Label) : Token :=
  ⟨.ident, charsOf name⟩

/-- The token of an operator. -/
def operatorToken (cls : BinaryClass) (op : Label) : Token :=
  match cls with
  | .comparison => ⟨.compareOp, charsOf op⟩
  | .additive => ⟨.addOp, charsOf op⟩
  | .multiplicative => ⟨.mulOp, charsOf op⟩

/-- The token of a literal. -/
def literalToken (text kind : Label) : Token :=
  match kind with
  | .str "int" => ⟨.intLit, charsOf text⟩
  | .str "double" => ⟨.realLit, charsOf text⟩
  | .str "str" => ⟨.stringLit, charsOf text⟩
  | _ => ⟨.keyword ((Keyword.ofText? (charsOf text)).getD .false), charsOf text⟩

/-- The token of an extent. -/
def extentToken (n : Int) : Token :=
  ⟨.intLit, Nat.toDigits 10 n.natAbs⟩

/-- The reserved word that names a type. -/
def tagWord : Tag → Keyword
  | .int => .int
  | .double => .double
  | .str => .str
  | .bool => .bool

/-- The binding strength of a level. -/
def Level.strength : Level → Nat
  | .of .comparison => 0
  | .of .additive => 1
  | .of .multiplicative => 2
  | .primary => 3

/-- The level of an expression. -/
def levelOf : Node → Level
  | .binary cls _ _ _ => .of cls
  | _ => .primary

/-- The tokens of an expression at a place for a level, in parentheses if it binds more weakly. -/
def placed (l : Level) (e : Node) (ts : List Token) : List Token :=
  if (levelOf e).strength < l.strength then sign .leftParen :: (ts ++ [sign .rightParen]) else ts

mutual

/-- The tokens of an expression. -/
def expressionTokens : Node → List Token
  | .literal text kind => [literalToken text kind]
  | .ident name => [nameToken name]
  | .binary cls op l r =>
    placed (.of cls) l (expressionTokens l)
      ++ operatorToken cls op :: placed (operandLevel cls) r (expressionTokens r)
  | .arrayAccess name indices =>
    nameToken name :: sign .leftSquare
      :: (separated (expressionLists indices) ++ [sign .rightSquare])
  | .call name args =>
    nameToken name :: sign .leftParen :: (separated (expressionLists args) ++ [sign .rightParen])
  | _ => []

/-- The tokens of each expression in a list. -/
def expressionLists : List Node → List (List Token)
  | [] => []
  | e :: es => expressionTokens e :: expressionLists es

end

/-- The tokens of the initial elements of an array. -/
def initializerTokens : Option (List Node) → List Token
  | none => []
  | some elements =>
    sign .equal :: sign .leftSquare
      :: (separated (expressionLists elements) ++ [sign .rightSquare])

mutual

/-- The tokens of a statement. -/
def statementTokens : Node → List Token
  | .varDecl tag name init =>
    word (tagWord tag) :: nameToken name
      :: ((if init.isMissing then [] else sign .equal :: expressionTokens init)
        ++ [sign .semicolon])
  | .arrayDecl name elem extents init =>
    word .array :: nameToken name :: sign .colon :: word (tagWord elem) :: sign .leftSquare
      :: (separated (extents.map fun n => [extentToken n]) ++ sign .rightSquare
        :: (initializerTokens init ++ [sign .semicolon]))
  | .assign name value =>
    nameToken name :: sign .becomes :: (expressionTokens value ++ [sign .semicolon])
  | .indexAssign name indices value =>
    nameToken name :: sign .leftSquare :: (separated (expressionLists indices)
      ++ sign .rightSquare :: sign .becomes :: (expressionTokens value ++ [sign .semicolon]))
  | .ifStmt condition thenBranch elseBranch =>
    word .if :: (expressionTokens condition ++ word .then :: (statementTokens thenBranch
      ++ if elseBranch.isMissing then [] else word .else :: statementTokens elseBranch))
  | .whileStmt condition body =>
    word .while :: (expressionTokens condition ++ word .do :: statementTokens body)
  | .routineDecl kind name params body =>
    word (routineWord kind) :: nameToken name :: sign .leftParen
      :: (separated (params.map fun x => [nameToken x]) ++ sign .rightParen
        :: word .begin :: (bodyTokens body ++ [word .end]))
  | .returnStmt value => word .return :: (expressionTokens value ++ [sign .semicolon])
  | .exprStmt value => expressionTokens value ++ [sign .semicolon]
  | .block body => word .begin :: (bodyTokens body ++ [word .end])
  | _ => []

/-- The tokens of statements in a row. -/
def bodyTokens : List Node → List Token
  | [] => []
  | s :: ss => statementTokens s ++ bodyTokens ss

end

/-- The tokens of a program. -/
def programTokens : Node → List Token
  | .program body => bodyTokens body
  | _ => []

/-- The source text of a program. -/
def write (program : Node) : String :=
  String.ofList (spaced (programTokens program))

/-! ## The tokens derive the tree -/

/-- A name that is no reserved word. -/
def IsIdentifier (s : String) : Prop :=
  Terminal.IsName s.toList ∧ Keyword.ofText? s.toList = none

variable {c : Category} {cls : BinaryClass} {a b l : Level} {ts : List Token} {t : Token}
  {e x s : Node} {isName : String → Prop}

@[simp] theorem label_nameToken (s : String) : label (nameToken (.str s)) = s :=
  String.ofList_toList

@[simp] theorem expressionLists_eq (es : List Node) :
    expressionLists es = es.map expressionTokens := by
  induction es with
  | nil => rfl
  | cons e es ih => rw [expressionLists, ih, List.map_cons]

@[simp] theorem bodyTokens_eq (ss : List Node) : bodyTokens ss = ss.flatMap statementTokens := by
  induction ss with
  | nil => rfl
  | cons s ss ih => rw [bodyTokens, ih, List.flatMap_cons]

theorem Phrase.weaken (he : Phrase a ts e) (hle : b.strength ≤ a.strength) : Phrase b ts e := by
  -- one step from each level to the next weaker one
  rcases a with (_ | _ | _) | _ <;> rcases b with (_ | _ | _) | _ <;>
    first
    | exact he
    | exact .operand he
    | exact .operand (.operand he)
    | exact .operand (.operand (.operand he))
    | exact absurd hle (by decide)

theorem Phrase.whole (he : Phrase a ts e) : Phrase .whole ts e :=
  he.weaken (Nat.zero_le _)

theorem Phrase.placed (he : Phrase (levelOf e) ts e) : Phrase l (placed l e ts) e := by
  unfold Source.placed
  split
  · -- in parentheses it is a single operand, which every place takes
    refine (Phrase.group he.whole).weaken ?_
    rcases l with (_ | _ | _) | _ <;> decide
  · next hle => exact he.weaken (Nat.not_lt.1 hle)

theorem operatorToken_label {op : Token} (hcls : operatorClass? op.terminal = some cls) :
    operatorToken cls (label op) = op := by
  obtain ⟨terminal, text⟩ := op
  cases terminal <;> cases hcls <;> simp [operatorToken, charsOf, label]

/-- A literal has the one token that it is the literal of. -/
theorem expressionTokens_literal (ht : t.Fits) (hx : literal? t = some x) :
    expressionTokens x = [t] ∧ levelOf x = .primary := by
  obtain ⟨terminal, text⟩ := t
  cases terminal with
  | intLit | realLit | stringLit =>
    cases hx
    simp [expressionTokens, literalToken, charsOf, levelOf]
  | keyword k =>
    -- only `true` and `false` are literals, and the text gives the keyword back
    have htext : text = k.text.toList := ht
    subst htext
    cases k <;> cases hx <;>
      simp [expressionTokens, literalToken, charsOf, levelOf, Keyword.ofText?_text]
  | _ => cases hx

/-- Each tree of a list with its tokens. -/
def paired (tokens : Node → List Token) (ns : List Node) : List (List Token × Node) :=
  ns.map fun n => (tokens n, n)

@[simp] theorem paired_fst (tokens : Node → List Token) (ns : List Node) :
    (paired tokens ns).map Prod.fst = ns.map tokens := by
  simp [paired]

@[simp] theorem paired_snd (tokens : Node → List Token) (ns : List Node) :
    (paired tokens ns).map Prod.snd = ns := by
  simp [paired, Function.comp_def]

@[simp] theorem paired_flatMap (tokens : Node → List Token) (ns : List Node) :
    (paired tokens ns).flatMap Prod.fst = ns.flatMap tokens := by
  simp [paired, List.flatMap_map]

theorem forall_mem_paired {tokens : Node → List Token} {ns : List Node}
    {P : List Token → Node → Prop} (h : ∀ n ∈ ns, P (tokens n) n) :
    ∀ a ∈ paired tokens ns, P a.1 a.2 := by
  intro a ha
  obtain ⟨n, hn, rfl⟩ := List.mem_map.1 ha
  exact h n hn

theorem IsExpression.phrase (he : IsExpression isName e) :
    Phrase (levelOf e) (expressionTokens e) e := by
  induction he with
  | literal ht hx =>
    obtain ⟨htokens, hlevel⟩ := expressionTokens_literal ht hx
    rw [htokens, hlevel]
    exact .literal hx
  | @ident name _ =>
    have := Phrase.ident (t := nameToken name) rfl
    simpa [expressionTokens, levelOf] using this
  | @binary cls op l r _ hcls _ _ ihl ihr =>
    rw [expressionTokens, operatorToken_label hcls]
    exact .binary ihl.placed hcls ihr.placed
  | @arrayAccess name indices _ hone htwo _ ih =>
    have := Phrase.access (t := nameToken name) (paired expressionTokens indices) rfl
      (by simpa [paired] using hone) (by simpa [paired] using htwo)
      (forall_mem_paired fun i hi => (ih i hi).whole)
    simpa [expressionTokens, levelOf] using this
  | @call name args _ _ ih =>
    have := Phrase.call (t := nameToken name) (paired expressionTokens args) rfl
      (forall_mem_paired fun a ha => (ih a ha).whole)
    simpa [expressionTokens, levelOf] using this

/-! ## Extents -/

theorem extentOf_extentToken {n : Int} (hn : IsExtentValue n) : extentOf (extentToken n) = n := by
  have hvalue : Numeral.ofDigits (digitsOf (extentToken n)) = n.natAbs :=
    Numeral.ofDigits_toDigits n.natAbs
  rw [extentOf, hvalue]
  exact Int.natAbs_of_nonneg hn.1

theorem isExtent_extentToken {n : Int} (hn : IsExtentValue n) : IsExtent (extentToken n) where
  intLit := rfl
  short := Numeral.length_filterMap_toDigits_le hn.2

/-! ## Statements -/

theorem tag?_tagWord (tag : Tag) : (tagWord tag).tag? = some tag := by
  cases tag <;> rfl

theorem Clause.branch (hs : Clause .statement ts s) (hbranch : isBranch s) :
    Clause .branch ts s := by
  cases hs with
  | ifThen _ hcondition hb => exact .ifThen (by decide) hcondition hb
  | ifElse _ hcondition hb he => exact .ifElse (by decide) hcondition hb he
  | block body hbody => exact .block body hbody
  | _ => cases hbranch

theorem clause_block {body : List Node}
    (hbody : ∀ s ∈ body, Clause .statement (statementTokens s) s) :
    Clause c (statementTokens (.block body)) (.block body) := by
  have := Clause.block (c := c) (paired statementTokens body) (forall_mem_paired hbody)
  simpa [statementTokens] using this

theorem IsStatement.clause (hs : IsStatement isName s) :
    Clause .statement (statementTokens s) s := by
  induction hs with
  | @varDecl tag name _ =>
    have := Clause.varDecl (t := nameToken name) (tag?_tagWord tag) rfl
    simpa [statementTokens, Node.isMissing] using this
  | @varInit tag name init _ hinit =>
    have := Clause.varInit (t := nameToken name) (tag?_tagWord tag) rfl hinit.phrase.whole
    simpa [statementTokens, hinit.isMissing] using this
  | @arrayDecl name elem extents init _ hone htwo hextents hinit =>
    -- the numeral of an extent has that extent as its value
    have hvalues : (extents.map extentToken).map extentOf = extents := by
      rw [List.map_map, List.map_congr_left (g := id)]
      · exact List.map_id _
      · exact fun n hn => extentOf_extentToken (hextents n hn)
    have hnumerals : ∀ d ∈ extents.map extentToken, IsExtent d := by
      intro d hd
      obtain ⟨n, hn, rfl⟩ := List.mem_map.1 hd
      exact isExtent_extentToken (hextents n hn)
    have := Clause.arrayDecl (t := nameToken name) (extents.map extentToken)
      (init.map (paired expressionTokens)) (tag?_tagWord elem) rfl (by simpa using hone)
      (by simpa using htwo) hnumerals (by
        cases init with
        | none => simp
        | some elements => exact forall_mem_paired fun x hx => (hinit x hx).phrase.whole)
    rw [hvalues] at this
    cases init <;>
      simpa [statementTokens, initializer, initializerTokens, Function.comp_def] using this
  | @assign name value _ hvalue =>
    have := Clause.assign (t := nameToken name) rfl hvalue.phrase.whole
    simpa [statementTokens] using this
  | @indexAssign name indices value _ hone htwo hindices hvalue =>
    have := Clause.indexAssign (t := nameToken name) (paired expressionTokens indices) rfl
      (by simpa [paired] using hone) (by simpa [paired] using htwo)
      (forall_mem_paired fun i hi => (hindices i hi).phrase.whole) hvalue.phrase.whole
    simpa [statementTokens] using this
  | ifThen hcondition _ ih =>
    have := Clause.ifThen (c := .statement) (by decide) hcondition.phrase.whole (clause_block ih)
    simpa [statementTokens, Node.isMissing] using this
  | ifElse hcondition _ he hbranch ihb ihe =>
    have := Clause.ifElse (c := .statement) (by decide) hcondition.phrase.whole (clause_block ihb)
      (ihe.branch hbranch)
    simpa [statementTokens, he.isMissing] using this
  | whileStmt hcondition _ ih =>
    have := Clause.whileStmt hcondition.phrase.whole (clause_block ih)
    simpa [statementTokens] using this
  | @routineDecl kind name params body _ _ _ ih =>
    -- the body is written as a block, and the parser takes its statements out of it again
    have := Clause.routine (t := nameToken name) kind (params.map fun x => nameToken (.str x)) rfl
      (by simp [nameToken]) (clause_block ih)
    simpa [statementTokens, Function.comp_def, Parser.routineBody] using this
  | returnStmt hvalue =>
    have := Clause.returnStmt hvalue.phrase.whole
    simpa [statementTokens] using this
  | exprStmt hvalue =>
    have := Clause.exprStmt hvalue.phrase.whole
    simpa [statementTokens] using this
  | block _ ih => exact clause_block ih

/-! ## The tokens have the patterns of their terminals -/

section Spelling

variable {us : List Token} {u : Terminal}

theorem spelled_nil : Spelled isName [] :=
  fun _ ht => nomatch ht

theorem Spelled.append (hts : Spelled isName ts) (hus : Spelled isName us) :
    Spelled isName (ts ++ us) :=
  List.forall_mem_append.2 ⟨hts, hus⟩

theorem Spelled.sign_cons (hts : Spelled isName ts) (hu : isFixed u) :
    Spelled isName (sign u :: ts) := by
  refine List.forall_mem_cons.2 ⟨⟨?_, fun hident => ?_⟩, hts⟩
  · cases u <;> first | rfl | cases hu
  · have hu' : u = .ident := hident
    rw [hu'] at hu
    cases hu

theorem Spelled.name_cons {name : String} (hts : Spelled IsIdentifier ts)
    (hname : IsIdentifier name) : Spelled IsIdentifier (nameToken name :: ts) := by
  refine List.forall_mem_cons.2 ⟨⟨hname.1, fun _ => ?_⟩, hts⟩
  rw [label_nameToken]
  exact hname

theorem spelled_separated {parts : List (List Token)} (hparts : ∀ ts ∈ parts, Spelled isName ts) :
    Spelled isName (separated parts) := by
  intro t ht
  rcases mem_of_mem_separated ht with rfl | ⟨part, hpart, ht⟩
  · exact Spelled.sign_cons (u := .comma) spelled_nil rfl _ List.mem_cons_self
  · exact hparts part hpart t ht

theorem spelled_lists {es : List Node}
    (hes : ∀ e ∈ es, Spelled isName (expressionTokens e)) :
    Spelled isName (separated (expressionLists es)) := by
  refine spelled_separated fun ts hts => ?_
  rw [expressionLists_eq] at hts
  obtain ⟨e, he, rfl⟩ := List.mem_map.1 hts
  exact hes e he

theorem Spelled.placed (hts : Spelled isName ts) : Spelled isName (placed l e ts) := by
  unfold Source.placed
  split
  · exact (hts.append (spelled_nil.sign_cons rfl)).sign_cons rfl
  · exact hts

theorem IsExpression.spelled (he : IsExpression IsIdentifier e) :
    Spelled IsIdentifier (expressionTokens e) := by
  induction he with
  | literal ht hx =>
    rw [(expressionTokens_literal ht hx).1]
    exact List.forall_mem_singleton.2 ⟨ht, fun hident => absurd hident (exists_of_literal? hx).1⟩
  | ident hname =>
    rw [expressionTokens]
    exact spelled_nil.name_cons hname
  | binary hop hcls _ _ ihl ihr =>
    rw [expressionTokens, operatorToken_label hcls]
    refine ihl.placed.append (List.forall_mem_cons.2 ⟨⟨hop, fun hident => ?_⟩, ihr.placed⟩)
    rw [hident] at hcls
    cases hcls
  | arrayAccess hname _ _ _ ih =>
    rw [expressionTokens]
    exact (((spelled_lists ih).append (spelled_nil.sign_cons rfl)).sign_cons rfl).name_cons hname
  | call hname _ ih =>
    rw [expressionTokens]
    exact (((spelled_lists ih).append (spelled_nil.sign_cons rfl)).sign_cons rfl).name_cons hname

theorem spelled_extents {extents : List Int} :
    Spelled isName (separated (extents.map fun n => [extentToken n])) := by
  refine spelled_separated fun ts hts => ?_
  obtain ⟨n, -, rfl⟩ := List.mem_map.1 hts
  refine List.forall_mem_singleton.2 ⟨⟨Nat.toDigits_ne_nil, fun d hd => ?_⟩, fun hident => ?_⟩
  · rw [Text.isDecimalDigit,
      Numeral.decimalDigit?_of_isDigit (Numeral.isDigit_of_mem_toDigits hd)]
    rfl
  · cases hident

theorem spelled_initializer {init : Option (List Node)}
    (hinit : ∀ x ∈ init.getD [], IsExpression IsIdentifier x) :
    Spelled IsIdentifier (initializerTokens init) := by
  cases init with
  | none => exact spelled_nil
  | some elements =>
    have helements := spelled_lists fun x hx => (hinit x hx).spelled
    exact ((helements.append (spelled_nil.sign_cons rfl)).sign_cons rfl).sign_cons rfl

theorem spelled_body {body : List Node}
    (hbody : ∀ s ∈ body, Spelled isName (statementTokens s)) :
    Spelled isName (word .begin :: (bodyTokens body ++ [word .end])) := by
  refine Spelled.sign_cons (Spelled.append (fun t ht => ?_) (spelled_nil.sign_cons rfl)) rfl
  rw [bodyTokens_eq] at ht
  obtain ⟨s, hs, ht⟩ := List.mem_flatMap.1 ht
  exact hbody s hs t ht

theorem Spelled.semicolon (hts : Spelled isName ts) : Spelled isName (ts ++ [sign .semicolon]) :=
  hts.append (spelled_nil.sign_cons rfl)

theorem IsStatement.spelled (hs : IsStatement IsIdentifier s) :
    Spelled IsIdentifier (statementTokens s) := by
  induction hs with
  | varDecl hname =>
    rw [statementTokens]
    exact (spelled_nil.semicolon.name_cons hname).sign_cons rfl
  | varInit hname hinit =>
    rw [statementTokens, hinit.isMissing]
    exact ((hinit.spelled.sign_cons rfl).semicolon.name_cons hname).sign_cons rfl
  | arrayDecl hname _ _ _ hinit =>
    rw [statementTokens]
    have hafter := (spelled_initializer hinit).semicolon.sign_cons (u := .rightSquare) rfl
    exact ((((spelled_extents.append hafter).sign_cons rfl).sign_cons rfl).sign_cons rfl
      |>.name_cons hname).sign_cons rfl
  | assign hname hvalue =>
    rw [statementTokens]
    exact (hvalue.spelled.semicolon.sign_cons rfl).name_cons hname
  | indexAssign hname _ _ hindices hvalue =>
    rw [statementTokens]
    have hafter := hvalue.spelled.semicolon.sign_cons (u := .becomes) rfl
    have hlist := spelled_lists fun i hi => (hindices i hi).spelled
    exact ((hlist.append (hafter.sign_cons rfl)).sign_cons rfl).name_cons hname
  | ifThen hcondition _ ih =>
    rw [statementTokens, statementTokens]
    have hthen := (spelled_body ih).append spelled_nil
    exact (hcondition.spelled.append (hthen.sign_cons rfl)).sign_cons rfl
  | ifElse hcondition _ he _ ihb ihe =>
    rw [statementTokens, statementTokens, he.isMissing]
    have hthen := (spelled_body ihb).append (ihe.sign_cons (u := .keyword .else) rfl)
    exact (hcondition.spelled.append (hthen.sign_cons rfl)).sign_cons rfl
  | whileStmt hcondition _ ih =>
    rw [statementTokens, statementTokens]
    exact (hcondition.spelled.append ((spelled_body ih).sign_cons rfl)).sign_cons rfl
  | routineDecl hname hparams _ ih =>
    rw [statementTokens]
    refine Spelled.sign_cons (Spelled.name_cons (Spelled.sign_cons (Spelled.append ?_
      ((spelled_body ih).sign_cons rfl)) rfl) hname) rfl
    refine spelled_separated fun ts hts => ?_
    obtain ⟨label, hlabel, rfl⟩ := List.mem_map.1 hts
    obtain ⟨x, hx, rfl⟩ := List.mem_map.1 hlabel
    exact spelled_nil.name_cons (hparams x hx)
  | returnStmt hvalue =>
    rw [statementTokens]
    exact hvalue.spelled.semicolon.sign_cons rfl
  | exprStmt hvalue =>
    rw [statementTokens]
    exact hvalue.spelled.semicolon
  | block _ ih =>
    rw [statementTokens]
    exact spelled_body ih

end Spelling

/-! ## Round trip -/

/-- Every program of the shape of the grammar is what its source text is parsed into. -/
theorem parse_write {program : Node} (hprogram : IsProgram IsIdentifier program) :
    parse (write program) = .ok program := by
  obtain ⟨hbody⟩ := hprogram
  rename_i body
  have htokens : programTokens (.program body)
      = (paired statementTokens body).flatMap Prod.fst := by
    rw [programTokens, bodyTokens_eq, paired_flatMap]
  have hderives : Derives (programTokens (.program body)) body :=
    ⟨paired statementTokens body, forall_mem_paired fun s hs => (hbody s hs).clause, htokens,
      (paired_snd _ _).symm⟩
  have hspelled : Spelled IsIdentifier (programTokens (.program body)) := by
    intro t ht
    rw [programTokens, bodyTokens_eq] at ht
    obtain ⟨s, hs, ht⟩ := List.mem_flatMap.1 ht
    exact (hbody s hs).spelled t ht
  refine hderives.parse_spaced (fun t ht => (hspelled t ht).1) fun t ht hident => ?_
  have hname := ((hspelled t ht).2 hident).2
  rwa [label, String.toList_ofList] at hname

/-- A program whose second subtraction needs its parentheses: `int n ; n := n - ( n - 1 ) ;`. -/
def nestedSubtraction : Node :=
  .program [.varDecl .int "n" .missing,
    .assign "n" (.binary .additive "-" (.ident "n")
      (.binary .additive "-" (.ident "n") (.literal "1" "int")))]

theorem parse_write_nestedSubtraction :
    IsProgram IsIdentifier nestedSubtraction ∧
      parse (write nestedSubtraction) = .ok nestedSubtraction := by
  have hname : IsIdentifier "n" :=
    ⟨⟨'n', [], rfl, by decide, List.forall_mem_nil _⟩, by decide⟩
  have hone : IsExpression IsIdentifier (.literal "1" "int") :=
    .literal (t := ⟨.intLit, ['1']⟩) ⟨by decide, List.all_eq_true.1 (by decide)⟩ rfl
  have hminus : Token.Fits ⟨.addOp, ['-']⟩ := by simp [Token.Fits, Terminal.Takes]
  have hinner := IsExpression.binary hminus rfl (.ident hname) hone
  have houter := IsExpression.binary hminus rfl (.ident hname) hinner
  have hprogram : IsProgram IsIdentifier nestedSubtraction := by
    refine .mk (List.forall_mem_cons.2 ⟨.varDecl hname, List.forall_mem_singleton.2 ?_⟩)
    exact .assign hname houter
  exact ⟨hprogram, parse_write hprogram⟩

end MiniAlgol.Source
