import MiniAlgol.Proofs.Source.Grammar
import MiniAlgol.Proofs.Value.Digits

/-!
# The shapes of parsed trees

A tree has a statement or an expression only where the grammar puts one, literals and operators as
tokens spell them, one or two indices and extents, and blocks for branches and bodies of loops. The
shapes are given for any notion of a name, and what the grammar derives has them
(`Clause.isStatement`).
-/

namespace MiniAlgol.Source

/-! ## Shapes -/

/-- An integer that may be an extent: it is not negative and has no more digits than a numeral may
have. -/
def IsExtentValue (n : Int) : Prop :=
  0 ≤ n ∧ n.natAbs < Numeral.writeBound

/-- An expression. -/
inductive IsExpression (isName : String → Prop) : Node → Prop where
  | literal {t : Token} {x : Node} (ht : t.Fits) (hx : literal? t = some x) :
      IsExpression isName x
  | ident {name : String} (hname : isName name) : IsExpression isName (.ident name)
  | binary {cls : BinaryClass} {op : Token} {l r : Node} (hop : op.Fits)
      (hcls : operatorClass? op.terminal = some cls) (hl : IsExpression isName l)
      (hr : IsExpression isName r) : IsExpression isName (.binary cls (label op) l r)
  | arrayAccess {name : String} {indices : List Node} (hname : isName name) (hone : indices ≠ [])
      (htwo : indices.length ≤ 2) (hindices : ∀ i ∈ indices, IsExpression isName i) :
      IsExpression isName (.arrayAccess name indices)
  | call {name : String} {args : List Node} (hname : isName name)
      (hargs : ∀ a ∈ args, IsExpression isName a) : IsExpression isName (.call name args)

/-- Whether a node may follow `else`. -/
def isBranch : Node → Bool
  | .block _ | .ifStmt .. => true
  | _ => false

/-- A statement. -/
inductive IsStatement (isName : String → Prop) : Node → Prop where
  | varDecl {tag : Tag} {name : String} (hname : isName name) :
      IsStatement isName (.varDecl tag name .missing)
  | varInit {tag : Tag} {name : String} {init : Node} (hname : isName name)
      (hinit : IsExpression isName init) : IsStatement isName (.varDecl tag name init)
  | arrayDecl {name : String} {elem : Tag} {extents : List Int} {init : Option (List Node)}
      (hname : isName name) (hone : extents ≠ []) (htwo : extents.length ≤ 2)
      (hextents : ∀ n ∈ extents, IsExtentValue n)
      (hinit : ∀ x ∈ init.getD [], IsExpression isName x) :
      IsStatement isName (.arrayDecl name elem extents init)
  | assign {name : String} {value : Node} (hname : isName name)
      (hvalue : IsExpression isName value) : IsStatement isName (.assign name value)
  | indexAssign {name : String} {indices : List Node} {value : Node} (hname : isName name)
      (hone : indices ≠ []) (htwo : indices.length ≤ 2)
      (hindices : ∀ i ∈ indices, IsExpression isName i) (hvalue : IsExpression isName value) :
      IsStatement isName (.indexAssign name indices value)
  | ifThen {condition : Node} {body : List Node} (hcondition : IsExpression isName condition)
      (hbody : ∀ s ∈ body, IsStatement isName s) :
      IsStatement isName (.ifStmt condition (.block body) .missing)
  | ifElse {condition e : Node} {body : List Node} (hcondition : IsExpression isName condition)
      (hbody : ∀ s ∈ body, IsStatement isName s) (he : IsStatement isName e)
      (hbranch : isBranch e) : IsStatement isName (.ifStmt condition (.block body) e)
  | whileStmt {condition : Node} {body : List Node} (hcondition : IsExpression isName condition)
      (hbody : ∀ s ∈ body, IsStatement isName s) :
      IsStatement isName (.whileStmt condition (.block body))
  | routineDecl {kind : RoutineKind} {name : String} {params : List String} {body : List Node}
      (hname : isName name) (hparams : ∀ x ∈ params, isName x)
      (hbody : ∀ s ∈ body, IsStatement isName s) :
      IsStatement isName (.routineDecl kind name (params.map .str) body)
  | returnStmt {value : Node} (hvalue : IsExpression isName value) :
      IsStatement isName (.returnStmt value)
  | exprStmt {value : Node} (hvalue : IsExpression isName value) :
      IsStatement isName (.exprStmt value)
  | block {body : List Node} (hbody : ∀ s ∈ body, IsStatement isName s) :
      IsStatement isName (.block body)

/-- A program. -/
inductive IsProgram (isName : String → Prop) : Node → Prop where
  | mk {body : List Node} (hbody : ∀ s ∈ body, IsStatement isName s) :
      IsProgram isName (.program body)

variable {isName : String → Prop} {c : Category} {l : Level} {ts : List Token} {e n : Node}

theorem IsExpression.isMissing (he : IsExpression isName e) : e.isMissing = false := by
  cases he with
  | literal _ hx =>
    obtain ⟨-, text, kind, rfl⟩ := exists_of_literal? hx
    rfl
  | _ => rfl

theorem IsStatement.isMissing (hn : IsStatement isName n) : n.isMissing = false := by
  cases hn <;> rfl

/-! ## What the grammar derives has them -/

theorem ofDigits_lt {digits : List Nat} (hdigits : ∀ d ∈ digits, d < 10) :
    Numeral.ofDigits digits < Nat.pow 10 digits.length := by
  -- the value so far counts as one more place
  have hfold : ∀ (digits : List Nat) (start : Nat), (∀ d ∈ digits, d < 10) →
      digits.foldl (fun n d => 10 * n + d) start < (start + 1) * 10 ^ digits.length := by
    intro digits
    induction digits with
    | nil => intro start _; simp
    | cons d digits ih =>
      intro start hall
      rw [List.forall_mem_cons] at hall
      have hrest := ih (10 * start + d) hall.2
      have hle : (10 * start + d + 1) * 10 ^ digits.length
          ≤ (10 * (start + 1)) * 10 ^ digits.length := Nat.mul_le_mul_right _ (by omega)
      rw [List.foldl_cons, List.length_cons, Nat.pow_succ, Nat.mul_comm _ 10, ← Nat.mul_assoc,
        Nat.mul_comm (start + 1)]
      omega
  simpa [Numeral.ofDigits] using hfold digits 0 hdigits

theorem ofDigits_lt_writeBound {digits : List Nat} (hdigits : ∀ d ∈ digits, d < 10)
    (hlength : digits.length ≤ Numeral.maxDigits) :
    Numeral.ofDigits digits < Numeral.writeBound :=
  Numeral.lt_writeBound hlength (ofDigits_lt hdigits)

theorem isExtentValue_extentOf {t : Token} (ht : IsExtent t) : IsExtentValue (extentOf t) := by
  have hdigits : ∀ d ∈ digitsOf t, d < 10 := by
    intro d hd
    obtain ⟨c, -, hc⟩ := List.mem_filterMap.1 hd
    exact Text.decimalDigit?_lt hc
  refine ⟨Int.natCast_nonneg _, ?_⟩
  rw [extentOf, Int.natAbs_natCast]
  exact ofDigits_lt_writeBound hdigits ht.short

/-- The tokens have the patterns of their terminals, and names are names. -/
def Spelled (isName : String → Prop) (ts : List Token) : Prop :=
  ∀ t ∈ ts, t.Fits ∧ (t.terminal = .ident → isName (label t))

theorem Spelled.sublist {us : List Token} (hts : Spelled isName ts) (hus : ∀ t ∈ us, t ∈ ts) :
    Spelled isName us :=
  fun t ht => hts t (hus t ht)

theorem Spelled.part {parts : List (List Token × Node)}
    (hts : Spelled isName (separated (parts.map Prod.fst))) {a : List Token × Node}
    (ha : a ∈ parts) : Spelled isName a.1 :=
  hts.sublist fun _ ht => mem_separated_of_mem (List.mem_map_of_mem ha) ht

/-- What the parts of a list have, their trees have. -/
theorem forall_mem_snd {P : Node → Prop} {parts : List (List Token × Node)}
    (hparts : ∀ a ∈ parts, P a.2) : ∀ x ∈ parts.map Prod.snd, P x := by
  intro x hx
  obtain ⟨a, ha, rfl⟩ := List.mem_map.1 hx
  exact hparts a ha

theorem Phrase.isExpression (hphrase : Phrase l ts e) (hts : Spelled isName ts) :
    IsExpression isName e := by
  induction hphrase with
  | literal hx => exact .literal (hts _ List.mem_cons_self).1 hx
  | ident ht => exact .ident ((hts _ List.mem_cons_self).2 ht)
  | group _ ih => exact ih (hts.sublist (by simp +contextual))
  | call args ht _ ih =>
    have hargs : Spelled isName (separated (args.map Prod.fst)) :=
      hts.sublist (by simp +contextual)
    exact .call ((hts _ List.mem_cons_self).2 ht)
      (forall_mem_snd fun a ha => ih a ha (hargs.part ha))
  | access indices ht hone htwo _ ih =>
    have hindices : Spelled isName (separated (indices.map Prod.fst)) :=
      hts.sublist (by simp +contextual)
    exact .arrayAccess ((hts _ List.mem_cons_self).2 ht) (by simpa using hone)
      (by simpa using htwo) (forall_mem_snd fun i hi => ih i hi (hindices.part hi))
  | operand _ ih => exact ih hts
  | binary _ hop _ ihl ihr =>
    exact .binary (hts _ (by simp)).1 hop (ihl (hts.sublist (by simp +contextual)))
      (ihr (hts.sublist (by simp +contextual)))

theorem isBranch_of_clause (hclause : Clause .branch ts n) : isBranch n := by
  cases hclause <;> rfl

theorem Clause.exists_block (hclause : Clause .block ts n) :
    ∃ body, n = .block body := by
  cases hclause with
  | ifThen hc => exact absurd rfl hc
  | ifElse hc => exact absurd rfl hc
  | block body => exact ⟨_, rfl⟩

theorem IsStatement.body {body : List Node} (hblock : IsStatement isName (.block body)) :
    ∀ s ∈ body, IsStatement isName s := by
  cases hblock with
  | block hbody => exact hbody

theorem IsStatement.routineBody {b : Node} (hb : IsStatement isName b) :
    ∀ s ∈ Parser.routineBody b, IsStatement isName s := by
  unfold Parser.routineBody
  split
  · exact hb.body
  · simpa using hb

theorem Clause.isStatement (hclause : Clause c ts n) (hts : Spelled isName ts) :
    IsStatement isName n := by
  induction hclause with
  | varDecl _ ht => exact .varDecl ((hts _ (by simp)).2 ht)
  | varInit _ ht he =>
    exact .varInit ((hts _ (by simp)).2 ht) (he.isExpression (hts.sublist (by simp +contextual)))
  | arrayDecl extents init _ ht hone htwo hextents hinit =>
    refine .arrayDecl ((hts _ (by simp)).2 ht) (by simpa using hone) (by simpa using htwo) ?_ ?_
    · intro n hn
      obtain ⟨d, hd, rfl⟩ := List.mem_map.1 hn
      exact isExtentValue_extentOf (hextents d hd)
    · cases init with
      | none => simp
      | some elements =>
        have helements : Spelled isName (separated (elements.map Prod.fst)) :=
          hts.sublist (by simp +contextual [initializer])
        exact forall_mem_snd fun x hx => (hinit x hx).isExpression (helements.part hx)
  | assign ht he =>
    exact .assign ((hts _ (by simp)).2 ht) (he.isExpression (hts.sublist (by simp +contextual)))
  | indexAssign indices ht hone htwo hindices he =>
    have hparts : Spelled isName (separated (indices.map Prod.fst)) :=
      hts.sublist (by simp +contextual)
    exact .indexAssign ((hts _ (by simp)).2 ht) (by simpa using hone) (by simpa using htwo)
      (forall_mem_snd fun i hi => (hindices i hi).isExpression (hparts.part hi))
      (he.isExpression (hts.sublist (by simp +contextual)))
  | ifThen _ hcondition hb ih =>
    have hbody := ih (hts.sublist (by simp +contextual))
    obtain ⟨body, rfl⟩ := hb.exists_block
    exact .ifThen (hcondition.isExpression (hts.sublist (by simp +contextual))) hbody.body
  | ifElse _ hcondition hb he ihb ihe =>
    have hbody := ihb (hts.sublist (by simp +contextual))
    obtain ⟨body, rfl⟩ := hb.exists_block
    exact .ifElse (hcondition.isExpression (hts.sublist (by simp +contextual))) hbody.body
      (ihe (hts.sublist (by simp +contextual))) (isBranch_of_clause he)
  | whileStmt hcondition hb ih =>
    have hbody := ih (hts.sublist (by simp +contextual))
    obtain ⟨body, rfl⟩ := hb.exists_block
    exact .whileStmt (hcondition.isExpression (hts.sublist (by simp +contextual))) hbody.body
  | routine kind params ht hparams _ ih =>
    -- a body that is a block gives its statements, any other is the one statement
    have hbody := ih (hts.sublist (by simp +contextual))
    have hnames : ∀ x ∈ params.map label, isName x := by
      intro x hx
      obtain ⟨t, ht, rfl⟩ := List.mem_map.1 hx
      have hmem : t ∈ separated (params.map ([·])) :=
        mem_separated_of_mem (List.mem_map_of_mem ht) List.mem_cons_self
      exact (hts t (by simp [hmem])).2 (hparams t ht)
    rw [← Function.comp_def, ← List.map_map]
    exact .routineDecl ((hts _ (by simp)).2 ht) hnames hbody.routineBody
  | returnStmt he => exact .returnStmt (he.isExpression (hts.sublist (by simp +contextual)))
  | exprStmt he => exact .exprStmt (he.isExpression (hts.sublist (by simp +contextual)))
  | block body _ ih =>
    refine .block (forall_mem_snd fun s hs => ih s hs (hts.sublist fun t ht => ?_))
    have hmem : t ∈ body.flatMap Prod.fst := List.mem_flatMap.2 ⟨s, hs, ht⟩
    simp [hmem]

theorem Derives.isProgram {body : List Node} (hderives : Derives ts body)
    (hts : Spelled isName ts) : IsProgram isName (.program body) := by
  obtain ⟨parts, hparts, rfl, rfl⟩ := hderives
  refine .mk (forall_mem_snd fun s hs => (hparts s hs).isStatement (hts.sublist fun t ht => ?_))
  exact List.mem_flatMap.2 ⟨s, hs, ht⟩

end MiniAlgol.Source
