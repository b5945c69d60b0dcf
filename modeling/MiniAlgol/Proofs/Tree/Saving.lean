import MiniAlgol.Proofs.Except
import MiniAlgol.Proofs.Json.Reading
import MiniAlgol.Proofs.Source.Soundness
import MiniAlgol.Tree.Load
import MiniAlgol.Tree.Save

/-!
# Saving trees

Loading gives back every tree that was saved, whatever its nodes and labels (`ofJson_toJson`).
-/

namespace MiniAlgol.Node

/-- Extents are saved as integers, which an extent may be as it is; texts and reals, which loading
accepts in their place, are not written. -/
theorem mapM_extentOf (extents : List Int) :
    extents.mapM (extentOf ∘ Json.int) = .ok extents := by
  induction extents with
  | nil => rfl
  | cons n extents ih =>
    rw [List.mapM_cons, ih]
    rfl

theorem tagOf_name (tag : Tag) : tagOf (.str tag.name) = .ok tag := by
  rw [tagOf, Tag.ofName?_name]

/-! ## Parts of an object -/

/-- The parts of an object are looked up by the names of its members. Each part carries its value,
the tree that the value loads as and the list of trees that it loads as, since only the kind of the
node says which of them it is. -/
@[simp] theorem lookup_partsOf (first : String) (value : Json) (members : List (String × Json))
    (name : String) :
    (partsOf ((first, value) :: members)).lookup name
      = if name = first then some ⟨value, ofJson value, ofJsonItems value⟩
        else (partsOf members).lookup name := by
  rw [partsOf, List.lookup_cons]
  by_cases hname : name = first
  · simp [hname]
  · simp [hname, beq_false_of_ne hname]

@[simp] theorem get_partsOf (first : String) (value : Json) (members : List (String × Json))
    (name : String) :
    Parts.get (partsOf ((first, value) :: members)) name
      = if name = first then .ok ⟨value, ofJson value, ofJsonItems value⟩
        else Parts.get (partsOf members) name := by
  by_cases hname : name = first <;> simp [Parts.get, hname]

/-- What was saved as an object is assembled from its parts, by the kind that it was saved with. -/
@[simp] theorem ofJson_object (kind : String) (members : List (String × Json)) :
    ofJson (object kind members)
      = (partsOf (("type", .str kind) :: members)).assemble kind := by
  simp [object, ofJson, Parts.toNode]

/-! ## Trees -/

mutual

/-- Every tree loads as itself: loading asks for the parts of a node by the names that saving gave
them. -/
theorem ofJson_toJson (n : Node) : ofJson (toJson n) = .ok n := by
  cases n with
  | missing => rfl
  | program body =>
    simp [toJson, Parts.assemble, Parts.nodes, ofJsonItems, ofJsonList_toJsonList body]
  | block body =>
    simp [toJson, Parts.assemble, Parts.nodes, ofJsonItems, ofJsonList_toJsonList body]
  | varDecl tag name init =>
    simp [toJson, Parts.assemble, Parts.tag, Parts.label, Parts.nodeOrMissing, tagOf_name,
      ofJson_toJson init]
  | arrayDecl name elem extents init =>
    cases init with
    | none =>
      simp [toJson, Parts.assemble, Parts.label, Parts.tag, Parts.extents, Parts.nodesOrNone,
        tagOf_name, itemsOf, mapM_extentOf]
    | some init =>
      simp [toJson, Parts.assemble, Parts.label, Parts.tag, Parts.extents, Parts.nodesOrNone,
        tagOf_name, itemsOf, mapM_extentOf, ofJsonItems, ofJsonList_toJsonList init, Except.map]
  | assign name value =>
    simp [toJson, Parts.assemble, Parts.label, Parts.node, ofJson_toJson value]
  | indexAssign name indices value =>
    simp [toJson, Parts.assemble, Parts.label, Parts.node, Parts.nodes, ofJsonItems,
      ofJsonList_toJsonList indices, ofJson_toJson value]
  | ifStmt condition thenBranch elseBranch =>
    simp [toJson, Parts.assemble, Parts.node, Parts.nodeOrMissing, ofJson_toJson condition,
      ofJson_toJson thenBranch, ofJson_toJson elseBranch]
  | whileStmt condition body =>
    simp [toJson, Parts.assemble, Parts.node, ofJson_toJson condition, ofJson_toJson body]
  | routineDecl kind name params body =>
    -- functions and procedures differ in the kind only
    cases kind <;>
      simp [toJson, RoutineKind.nodeName, Parts.assemble, Parts.routine, Parts.label, Parts.labels,
        Parts.nodes, itemsOf, ofJsonItems, ofJsonList_toJsonList body]
  | returnStmt value => simp [toJson, Parts.assemble, Parts.node, ofJson_toJson value]
  | exprStmt value => simp [toJson, Parts.assemble, Parts.node, ofJson_toJson value]
  | literal text kind => simp [toJson, Parts.assemble, Parts.label]
  | ident name => simp [toJson, Parts.assemble, Parts.label]
  | binary cls op left right =>
    cases cls <;>
      simp [toJson, BinaryClass.nodeName, Parts.assemble, Parts.binary, Parts.label, Parts.node,
        ofJson_toJson left, ofJson_toJson right]
  | arrayAccess name indices =>
    simp [toJson, Parts.assemble, Parts.label, Parts.nodes, ofJsonItems,
      ofJsonList_toJsonList indices]
  | call name args =>
    simp [toJson, Parts.assemble, Parts.label, Parts.nodes, ofJsonItems,
      ofJsonList_toJsonList args]

theorem ofJsonList_toJsonList (ns : List Node) : ofJsonList (toJsonList ns) = .ok ns := by
  cases ns with
  | nil => rfl
  | cons n ns => simp [toJsonList, ofJsonList, ofJson_toJson n, ofJsonList_toJsonList ns]

end

/-! ## The text of a parsed tree -/

open Json (Plain)

/-- An object is plain when its names are distinct, the kind among them, and its members are plain.
-/
theorem plain_object {kind : String} {members : List (String × Json)}
    (hnames : ("type" :: members.map Prod.fst).Nodup) (hmembers : ∀ m ∈ members, Plain m.2) :
    Plain (object kind members) :=
  .obj hnames (List.forall_mem_cons.2 ⟨.str kind, hmembers⟩)

theorem plain_toJsonList {ns : List Node} (hns : ∀ n ∈ ns, Plain (toJson n)) :
    Plain (.arr (toJsonList ns)) := by
  have hmap : toJsonList ns = ns.map toJson := by
    induction ns with
    | nil => rfl
    | cons n ns ih => rw [toJsonList, List.map_cons, ih (List.forall_mem_cons.1 hns).2]
  rw [hmap]
  exact .arr (List.forall_mem_map.2 hns)

variable {isName : String → Prop} {n : Node}

/-- Expressions have no numbers when they are saved: a literal keeps its text. -/
theorem plain_of_isExpression (hn : Source.IsExpression isName n) : Plain (toJson n) := by
  induction hn with
  | literal _ hx =>
    obtain ⟨-, text, kind, rfl⟩ := Source.exists_of_literal? hx
    exact plain_object (by simp) (by simp [Plain.str])
  | ident => exact plain_object (by simp) (by simp [Plain.str])
  | binary _ _ _ _ ihl ihr => exact plain_object (by simp) (by simp [Plain.str, ihl, ihr])
  | arrayAccess _ _ _ _ ih =>
    exact plain_object (by simp) (by simp [Plain.str, plain_toJsonList ih])
  | call _ _ ih => exact plain_object (by simp) (by simp [Plain.str, plain_toJsonList ih])

theorem plain_expressions {ns : List Node} (hns : ∀ x ∈ ns, Source.IsExpression isName x) :
    Plain (.arr (toJsonList ns)) :=
  plain_toJsonList fun x hx => plain_of_isExpression (hns x hx)

/-- The extents of a parsed declaration were read from digits, so they are short enough to be
written. -/
theorem plain_extents {extents : List Int} (hextents : ∀ n ∈ extents, Source.IsExtentValue n) :
    Plain (.arr (extents.map .int)) :=
  .arr (List.forall_mem_map.2 fun n hn => .int (hextents n hn).2)

theorem plain_missing : Plain (toJson .missing) :=
  .null

theorem plain_block {body : List Node} (hbody : ∀ s ∈ body, Plain (toJson s)) :
    Plain (toJson (.block body)) :=
  plain_object (by simp) (by simp [plain_toJsonList hbody])

/-- The only integers of a saved statement are extents. -/
theorem plain_of_isStatement (hn : Source.IsStatement isName n) : Plain (toJson n) := by
  induction hn with
  | varDecl => exact plain_object (by simp) (by simp [Plain.str, plain_missing])
  | varInit _ hinit =>
    exact plain_object (by simp) (by simp [Plain.str, plain_of_isExpression hinit])
  | @arrayDecl name elem extents init _ _ _ hextents hinit =>
    -- without initial elements the member is there, and null
    cases init with
    | none =>
      exact plain_object (by simp) (by simp [Plain.str, Plain.null, plain_extents hextents])
    | some init =>
      have hitems : Plain (.arr (toJsonList init)) := plain_expressions hinit
      exact plain_object (by simp) (by simp [Plain.str, plain_extents hextents, hitems])
  | assign _ hvalue =>
    exact plain_object (by simp) (by simp [Plain.str, plain_of_isExpression hvalue])
  | indexAssign _ _ _ hindices hvalue =>
    exact plain_object (by simp)
      (by simp [Plain.str, plain_of_isExpression hvalue, plain_expressions hindices])
  | ifThen hcondition _ ih =>
    exact plain_object (by simp)
      (by simp [plain_of_isExpression hcondition, plain_block ih, plain_missing])
  | ifElse hcondition _ _ _ ihb ihe =>
    exact plain_object (by simp)
      (by simp [plain_of_isExpression hcondition, plain_block ihb, ihe])
  | whileStmt hcondition _ ih =>
    exact plain_object (by simp) (by simp [plain_of_isExpression hcondition, plain_block ih])
  | @routineDecl _ _ params _ _ _ _ ih =>
    have hparams : Plain (.arr (params.map .str)) :=
      .arr (List.forall_mem_map.2 fun x _ => .str x)
    exact plain_object (by simp) (by simp [Plain.str, hparams, plain_toJsonList ih])
  | returnStmt hvalue => exact plain_object (by simp) (by simp [plain_of_isExpression hvalue])
  | exprStmt hvalue => exact plain_object (by simp) (by simp [plain_of_isExpression hvalue])
  | block _ ih => exact plain_block ih

/-- What a source text was parsed to can be saved as text. -/
theorem plain_of_parse {source : String} (hparse : Source.parse source = .ok n) :
    Plain (toJson n) := by
  obtain ⟨hbody⟩ := Source.isProgram_of_parse hparse
  exact plain_object (by simp)
    (by simp [plain_toJsonList fun s hs => plain_of_isStatement (hbody s hs)])

end MiniAlgol.Node
