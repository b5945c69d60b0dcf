import MiniAlgol.Proofs.Tree.Saving

/-!
# The normal form of a saved tree

Loading is lenient: members may come in any order, others may stand between them, some may be left
out, and a list may be anything that has items. Saving is not, and writes one form (`Normal`): the
kind, then the members of `Layout` and no others. `resave_normalizes` says that saving what was
loaded brings every value that can be loaded to that form and keeps the values that have it.
-/

namespace MiniAlgol.Node

/-! ## The form -/

/-- What a member of a saved node holds. -/
inductive Field where
  | label
  | labels
  | tag
  | extents
  | tree
  | trees
  /-- Trees, or `null` for none at all. -/
  | treesOrNull

/-- The members of a saved node after its kind, in order. -/
inductive Layout : String → List (String × Field) → Prop where
  | program : Layout "Program" [("body", .trees)]
  | block : Layout "Block" [("statements", .trees)]
  | varDecl : Layout "VarDecl" [("type_spec", .tag), ("name", .label), ("expr", .tree)]
  | arrayDecl : Layout "ArrayDecl" [("name", .label), ("elem_type", .tag), ("dims", .extents),
      ("initializer", .treesOrNull)]
  | assign : Layout "Assign" [("name", .label), ("value", .tree)]
  | indexAssign : Layout "IndexAssign" [("name", .label), ("indices", .trees), ("value", .tree)]
  | ifStmt : Layout "IfStmt" [("condition", .tree), ("then_block", .tree), ("else_block", .tree)]
  | whileStmt : Layout "WhileStmt" [("condition", .tree), ("body", .tree)]
  | routineDecl (kind : RoutineKind) :
    Layout kind.nodeName [("name", .label), ("params", .labels), ("body", .trees)]
  | returnStmt : Layout "ReturnStmt" [("value", .tree)]
  | exprStmt : Layout "ExprStmt" [("expr", .tree)]
  | literal : Layout "Literal" [("text", .label), ("literal_type", .label)]
  | ident : Layout "Ident" [("name", .label)]
  | binary (cls : BinaryClass) :
    Layout cls.nodeName [("op", .label), ("left", .tree), ("right", .tree)]
  | arrayAccess : Layout "ArrayAccess" [("name", .label), ("indices", .trees)]
  | call : Layout "Call" [("name", .label), ("args", .trees)]

mutual

/-- A tree as it is saved. -/
inductive Normal : Json → Prop where
  | missing : Normal .null
  | node {kind : String} {fields : List (String × Field)} {members : List (String × Json)}
      (hlayout : Layout kind fields) (hmembers : NormalMembers fields members) :
    Normal (object kind members)

/-- Members with these names that hold what they should. -/
inductive NormalMembers : List (String × Field) → List (String × Json) → Prop where
  | nil : NormalMembers [] []
  | cons {name : String} {field : Field} {value : Json} {fields : List (String × Field)}
      {members : List (String × Json)} (hvalue : NormalValue field value)
      (hmembers : NormalMembers fields members) :
    NormalMembers ((name, field) :: fields) ((name, value) :: members)

/-- What a member holds, as it is saved. -/
inductive NormalValue : Field → Json → Prop where
  | label (value : Json) : NormalValue .label value
  | labels (items : List Json) : NormalValue .labels (.arr items)
  | tag (tag : Tag) : NormalValue .tag (.str tag.name)
  | extents (extents : List Int) : NormalValue .extents (.arr (extents.map .int))
  | tree {value : Json} (hvalue : Normal value) : NormalValue .tree value
  | trees {items : List Json} (hitems : ∀ j ∈ items, Normal j) : NormalValue .trees (.arr items)
  | noTrees : NormalValue .treesOrNull .null
  | someTrees {items : List Json} (hitems : ∀ j ∈ items, Normal j) :
    NormalValue .treesOrNull (.arr items)

end

/-! ## Saving writes the form -/

mutual

theorem normal_toJson (n : Node) : Normal (toJson n) := by
  cases n with
  | missing => exact .missing
  | program body => exact .node .program (.cons (.trees (normal_toJsonList body)) .nil)
  | block body => exact .node .block (.cons (.trees (normal_toJsonList body)) .nil)
  | varDecl tag name init =>
    exact .node .varDecl
      (.cons (.tag tag) (.cons (.label name) (.cons (.tree (normal_toJson init)) .nil)))
  | arrayDecl name elem extents init =>
    cases init with
    | none =>
      exact .node .arrayDecl (.cons (.label name) (.cons (.tag elem)
        (.cons (.extents extents) (.cons .noTrees .nil))))
    | some init =>
      exact .node .arrayDecl (.cons (.label name) (.cons (.tag elem)
        (.cons (.extents extents) (.cons (.someTrees (normal_toJsonList init)) .nil))))
  | assign name value =>
    exact .node .assign (.cons (.label name) (.cons (.tree (normal_toJson value)) .nil))
  | indexAssign name indices value =>
    exact .node .indexAssign (.cons (.label name)
      (.cons (.trees (normal_toJsonList indices)) (.cons (.tree (normal_toJson value)) .nil)))
  | ifStmt condition thenBranch elseBranch =>
    exact .node .ifStmt (.cons (.tree (normal_toJson condition))
      (.cons (.tree (normal_toJson thenBranch)) (.cons (.tree (normal_toJson elseBranch)) .nil)))
  | whileStmt condition body =>
    exact .node .whileStmt
      (.cons (.tree (normal_toJson condition)) (.cons (.tree (normal_toJson body)) .nil))
  | routineDecl kind name params body =>
    exact .node (.routineDecl kind)
      (.cons (.label name) (.cons (.labels params) (.cons (.trees (normal_toJsonList body)) .nil)))
  | returnStmt value => exact .node .returnStmt (.cons (.tree (normal_toJson value)) .nil)
  | exprStmt value => exact .node .exprStmt (.cons (.tree (normal_toJson value)) .nil)
  | literal text kind => exact .node .literal (.cons (.label text) (.cons (.label kind) .nil))
  | ident name => exact .node .ident (.cons (.label name) .nil)
  | binary cls op left right =>
    exact .node (.binary cls) (.cons (.label op)
      (.cons (.tree (normal_toJson left)) (.cons (.tree (normal_toJson right)) .nil)))
  | arrayAccess name indices =>
    exact .node .arrayAccess
      (.cons (.label name) (.cons (.trees (normal_toJsonList indices)) .nil))
  | call name args =>
    exact .node .call (.cons (.label name) (.cons (.trees (normal_toJsonList args)) .nil))

theorem normal_toJsonList (ns : List Node) : ∀ j ∈ toJsonList ns, Normal j := by
  cases ns with
  | nil => exact List.forall_mem_nil _
  | cons n ns => exact List.forall_mem_cons.2 ⟨normal_toJson n, normal_toJsonList ns⟩

end

/-! ## Every value of the form is saved -/

/-- What a member holds is saved from labels, tags, extents or trees. -/
def SavedValue : Field → Json → Prop
  | .label, _ => True
  | .labels, value => ∃ items, value = .arr items
  | .tag, value => ∃ tag : Tag, value = .str tag.name
  | .extents, value => ∃ extents : List Int, value = .arr (extents.map .int)
  | .tree, value => ∃ n, value = toJson n
  | .trees, value => ∃ ns, value = .arr (toJsonList ns)
  | .treesOrNull, value => value = .null ∨ ∃ ns, value = .arr (toJsonList ns)

/-- The members that a node is saved with. -/
def SavedMembers (fields : List (String × Field)) (members : List (String × Json)) : Prop :=
  List.Forall₂ (fun field member => member.1 = field.1 ∧ SavedValue field.2 member.2)
    fields members

theorem SavedMembers.uncons {name : String} {field : Field} {fields : List (String × Field)}
    {members : List (String × Json)} (h : SavedMembers ((name, field) :: fields) members) :
    ∃ value rest, members = (name, value) :: rest ∧ SavedValue field value ∧
      SavedMembers fields rest := by
  obtain ⟨⟨_, value⟩, rest, ⟨rfl, hvalue⟩, hrest, rfl⟩ := List.forall₂_cons_left_iff.1 h
  exact ⟨value, rest, rfl, hvalue, hrest⟩

theorem exists_toJsonList {items : List Json} (hitems : ∀ j ∈ items, ∃ n, j = toJson n) :
    ∃ ns, items = toJsonList ns := by
  induction items with
  | nil => exact ⟨[], rfl⟩
  | cons j items ih =>
    obtain ⟨n, rfl⟩ := hitems j List.mem_cons_self
    obtain ⟨ns, rfl⟩ := ih fun j hj => hitems j (List.mem_cons_of_mem _ hj)
    exact ⟨n :: ns, rfl⟩

/-- A kind with its members is the kind of some node with them. -/
theorem exists_toJson_object {kind : String} {fields : List (String × Field)}
    {members : List (String × Json)} (hlayout : Layout kind fields)
    (hmembers : SavedMembers fields members) : ∃ n, object kind members = toJson n := by
  cases hlayout with
  | program =>
    obtain ⟨_, _, rfl, ⟨body, rfl⟩, ⟨⟩⟩ := hmembers.uncons
    exact ⟨.program body, rfl⟩
  | block =>
    obtain ⟨_, _, rfl, ⟨body, rfl⟩, ⟨⟩⟩ := hmembers.uncons
    exact ⟨.block body, rfl⟩
  | varDecl =>
    obtain ⟨_, _, rfl, ⟨tag, rfl⟩, htail⟩ := hmembers.uncons
    obtain ⟨name, _, rfl, -, hrest⟩ := htail.uncons
    obtain ⟨_, _, rfl, ⟨init, rfl⟩, ⟨⟩⟩ := hrest.uncons
    exact ⟨.varDecl tag name init, rfl⟩
  | arrayDecl =>
    obtain ⟨name, _, rfl, -, htail⟩ := hmembers.uncons
    obtain ⟨_, _, rfl, ⟨elem, rfl⟩, hrest⟩ := htail.uncons
    obtain ⟨_, _, rfl, ⟨extents, rfl⟩, hlast⟩ := hrest.uncons
    obtain ⟨_, _, rfl, rfl | ⟨init, rfl⟩, ⟨⟩⟩ := hlast.uncons
    · exact ⟨.arrayDecl name elem extents none, rfl⟩
    · exact ⟨.arrayDecl name elem extents (some init), rfl⟩
  | assign =>
    obtain ⟨name, _, rfl, -, htail⟩ := hmembers.uncons
    obtain ⟨_, _, rfl, ⟨value, rfl⟩, ⟨⟩⟩ := htail.uncons
    exact ⟨.assign name value, rfl⟩
  | indexAssign =>
    obtain ⟨name, _, rfl, -, htail⟩ := hmembers.uncons
    obtain ⟨_, _, rfl, ⟨indices, rfl⟩, hrest⟩ := htail.uncons
    obtain ⟨_, _, rfl, ⟨value, rfl⟩, ⟨⟩⟩ := hrest.uncons
    exact ⟨.indexAssign name indices value, rfl⟩
  | ifStmt =>
    obtain ⟨_, _, rfl, ⟨condition, rfl⟩, htail⟩ := hmembers.uncons
    obtain ⟨_, _, rfl, ⟨thenBranch, rfl⟩, hrest⟩ := htail.uncons
    obtain ⟨_, _, rfl, ⟨elseBranch, rfl⟩, ⟨⟩⟩ := hrest.uncons
    exact ⟨.ifStmt condition thenBranch elseBranch, rfl⟩
  | whileStmt =>
    obtain ⟨_, _, rfl, ⟨condition, rfl⟩, htail⟩ := hmembers.uncons
    obtain ⟨_, _, rfl, ⟨body, rfl⟩, ⟨⟩⟩ := htail.uncons
    exact ⟨.whileStmt condition body, rfl⟩
  | routineDecl kind =>
    obtain ⟨name, _, rfl, -, htail⟩ := hmembers.uncons
    obtain ⟨_, _, rfl, ⟨params, rfl⟩, hrest⟩ := htail.uncons
    obtain ⟨_, _, rfl, ⟨body, rfl⟩, ⟨⟩⟩ := hrest.uncons
    exact ⟨.routineDecl kind name params body, rfl⟩
  | returnStmt =>
    obtain ⟨_, _, rfl, ⟨value, rfl⟩, ⟨⟩⟩ := hmembers.uncons
    exact ⟨.returnStmt value, rfl⟩
  | exprStmt =>
    obtain ⟨_, _, rfl, ⟨value, rfl⟩, ⟨⟩⟩ := hmembers.uncons
    exact ⟨.exprStmt value, rfl⟩
  | literal =>
    obtain ⟨text, _, rfl, -, htail⟩ := hmembers.uncons
    obtain ⟨kind, _, rfl, -, ⟨⟩⟩ := htail.uncons
    exact ⟨.literal text kind, rfl⟩
  | ident =>
    obtain ⟨name, _, rfl, -, ⟨⟩⟩ := hmembers.uncons
    exact ⟨.ident name, rfl⟩
  | binary cls =>
    obtain ⟨op, _, rfl, -, htail⟩ := hmembers.uncons
    obtain ⟨_, _, rfl, ⟨left, rfl⟩, hrest⟩ := htail.uncons
    obtain ⟨_, _, rfl, ⟨right, rfl⟩, ⟨⟩⟩ := hrest.uncons
    exact ⟨.binary cls op left right, rfl⟩
  | arrayAccess =>
    obtain ⟨name, _, rfl, -, htail⟩ := hmembers.uncons
    obtain ⟨_, _, rfl, ⟨indices, rfl⟩, ⟨⟩⟩ := htail.uncons
    exact ⟨.arrayAccess name indices, rfl⟩
  | call =>
    obtain ⟨name, _, rfl, -, htail⟩ := hmembers.uncons
    obtain ⟨_, _, rfl, ⟨args, rfl⟩, ⟨⟩⟩ := htail.uncons
    exact ⟨.call name args, rfl⟩

mutual

theorem exists_toJson {j : Json} : Normal j → ∃ n, j = toJson n
  | .missing => ⟨.missing, rfl⟩
  | .node hlayout hmembers => exists_toJson_object hlayout (savedMembers_of_normal hmembers)

theorem savedMembers_of_normal {fields : List (String × Field)} {members : List (String × Json)} :
    NormalMembers fields members → SavedMembers fields members
  | .nil => .nil
  | .cons hvalue hmembers =>
    .cons ⟨rfl, savedValue_of_normal hvalue⟩ (savedMembers_of_normal hmembers)

theorem savedValue_of_normal {field : Field} {value : Json} :
    NormalValue field value → SavedValue field value
  | .label _ => trivial
  | .labels items => ⟨items, rfl⟩
  | .tag tag => ⟨tag, rfl⟩
  | .extents extents => ⟨extents, rfl⟩
  | .tree hvalue => exists_toJson hvalue
  | .trees hitems =>
    have ⟨ns, hns⟩ := exists_toJsonList fun j hj => exists_toJson (hitems j hj)
    ⟨ns, congrArg Json.arr hns⟩
  | .noTrees => .inl rfl
  | .someTrees hitems =>
    have ⟨ns, hns⟩ := exists_toJsonList fun j hj => exists_toJson (hitems j hj)
    .inr ⟨ns, congrArg Json.arr hns⟩

end

/-! ## Saving what was loaded -/

/-- Loads a value and saves the tree that it gave. -/
def resave (j : Json) : Except LoadError Json := do
  let n ← ofJson j
  return toJson n

theorem resave_toJson (n : Node) : resave (toJson n) = .ok (toJson n) := by
  rw [resave, ofJson_toJson]
  rfl

/-- Every tree is loaded from what it was saved to. So a value that can be loaded is saved again in
normal form, from which the same tree is loaded: saving again changes nothing more, and the values
that it does not change are those in normal form. -/
theorem resave_normalizes :
    (∀ n, ofJson (toJson n) = .ok n) ∧
    (∀ j n, ofJson j = .ok n →
      resave j = .ok (toJson n) ∧ Normal (toJson n) ∧ ofJson (toJson n) = .ok n) ∧
    (∀ j saved, resave j = .ok saved → resave saved = .ok saved) ∧
    (∀ j, resave j = .ok j ↔ Normal j) := by
  refine ⟨ofJson_toJson, fun j n hload => ?_, fun j saved hsave => ?_, fun j => ⟨?_, ?_⟩⟩
  · refine ⟨?_, normal_toJson n, ofJson_toJson n⟩
    rw [resave, hload]
    rfl
  · obtain ⟨n, -, hn⟩ := bind_ok hsave
    cases hn
    exact resave_toJson n
  · intro hsave
    obtain ⟨n, -, hn⟩ := bind_ok hsave
    cases hn
    exact normal_toJson n
  · intro hnormal
    obtain ⟨n, rfl⟩ := exists_toJson hnormal
    exact resave_toJson n

/-- A value that is far from normal: members too many and out of order, left out and given as
strings, an object for the parameters, and extents that are no integers. -/
def lenientProgram : Json :=
  .obj [("body", .arr
      [.obj [("name", .str "a"), ("type", .str "ArrayDecl"), ("elem_type", .str "int"),
        ("dims", .arr [.str " 1_2", .real 2.5, .bool true])],
      .obj [("type", .str "VarDecl"), ("type_spec", .str "bool"), ("name", .int 3)],
      .obj [("type", .str "FuncDecl"), ("name", .null), ("params", .obj [("x", .null)]),
        ("body", .str "")],
      .obj [("type", .str "ProcDecl"), ("name", .str "p"), ("params", .str "xy"),
        ("body", .arr [.null])]]),
    ("origin", .str "elsewhere"), ("type", .str "Program")]

/-- The tree that it stands for. -/
def lenientTree : Node :=
  .program [.arrayDecl "a" .int [12, 2, 1] none, .varDecl .bool (.int 3) .missing,
    .routineDecl .function .null [.str "x"] [],
    .routineDecl .procedure "p" [.str "x", .str "y"] [.missing]]

theorem resave_normalizes_lenient :
    ofJson lenientProgram = .ok lenientTree ∧ resave lenientProgram = .ok (toJson lenientTree) ∧
      Normal (toJson lenientTree) ∧ ofJson (toJson lenientTree) = .ok lenientTree := by
  have hreal : extentOf (.real 2.5) = .ok 2 := by
    have hpart : Numeral.integerPart? 2.5 = some 2 := by decide +kernel
    simp [extentOf, Json.toInteger, hpart, Except.mapError]
  have hextents : [.str " 1_2", .real 2.5, .bool true].mapM extentOf = .ok [12, 2, 1] := by
    have hstr : extentOf (.str " 1_2") = .ok 12 := by cbv
    rw [List.mapM_cons, List.mapM_cons, hstr, hreal]
    rfl
  have hint : tagOf (.str "int") = .ok .int := tagOf_name .int
  have hbool : tagOf (.str "bool") = .ok .bool := tagOf_name .bool
  have hnone : partsOf [] = [] := rfl
  have hload : ofJson lenientProgram = .ok lenientTree := by
    simp [lenientProgram, lenientTree, ofJson, ofJsonItems, ofJsonList, Parts.toNode,
      Parts.assemble, Parts.nodes, Parts.label, Parts.tag, Parts.extents, Parts.nodesOrNone,
      Parts.nodeOrMissing, Parts.routine, Parts.labels, itemsOf, hextents, hint, hbool, hnone]
  exact ⟨hload, resave_normalizes.2.1 _ _ hload⟩

end MiniAlgol.Node
