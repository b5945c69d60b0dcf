import MiniAlgol.Json.Reader
import MiniAlgol.Proofs.Except
import MiniAlgol.Proofs.Run.Faults
import MiniAlgol.Proofs.Tree.Saving

/-!
# Extents that are read

A tree can be made with any integers as the extents of its arrays. One that was read has none with
more digits than may be written: a source text holds no longer numeral as an extent
(`shortExtents_of_parse`), and from JSON text extents come as numerals, as integers with as many
digits at most, and as the integer parts of doubles (`shortExtents_of_ofJson`).
-/

namespace MiniAlgol

open Numeral (writeBound)

/-! ## Numbers -/

namespace Numeral

theorem lt_writeBound_of_lt_ten {n : Nat} (hn : n < 10) : n < writeBound :=
  lt_writeBound (k := 1) (by decide) hn

theorem natAbs_signed (negative : Bool) (n : Nat) : (signed negative n).natAbs = n := by
  cases negative with
  | false => exact Int.natAbs_natCast n
  | true => exact Int.natAbs_neg n |>.trans (Int.natAbs_natCast n)

theorem two_pow_lt_writeBound {k : Nat} (hk : k ≤ maxDigits) : 2 ^ k < writeBound := by
  rcases Nat.eq_zero_or_pos k with rfl | hpos
  · exact lt_writeBound_of_lt_ten (by decide)
  · exact lt_writeBound hk (Nat.pow_lt_pow_left (by decide) hpos.ne')

theorem num_scaled_lt {m : Nat} {e : Int} (hm : m < 2 ^ 53) (he : e ≤ 971) :
    (Ratio.scaled m 2 e).num < writeBound := by
  have hmax : maxDigits = 4300 := rfl
  unfold Ratio.scaled
  split
  · calc m * 2 ^ e.toNat < 2 ^ 53 * 2 ^ e.toNat :=
          Nat.mul_lt_mul_of_pos_right hm (Nat.two_pow_pos _)
      _ = 2 ^ (53 + e.toNat) := (Nat.pow_add 2 53 _).symm
      _ < writeBound := two_pow_lt_writeBound (by omega)
  · exact hm.trans (two_pow_lt_writeBound (by omega))

/-- A finite double is far below the bound. -/
theorem num_value_lt {bits : Nat} (hbits : bits < 0x7ff0000000000000) :
    (Binary.ofBits bits).value.num < writeBound := by
  have hleading : Binary.leadingBit = 2 ^ 52 := rfl
  have hfraction : bits % Binary.leadingBit < 2 ^ 52 := Nat.mod_lt _ (by decide)
  have hfield : bits / Binary.leadingBit % 0x800 < 0x7ff := by
    rw [hleading]
    omega
  unfold Binary.value Binary.ofBits
  simp only
  split
  · refine num_scaled_lt (hfraction.trans (by decide)) ?_
    show Binary.leastExponent ≤ 971
    decide
  · refine num_scaled_lt ?_ ?_
    · show Binary.leadingBit + bits % Binary.leadingBit < 2 ^ 53
      omega
    · show (bits / Binary.leadingBit % 0x800 : Nat) - (1075 : Int) ≤ 971
      omega

theorem natAbs_integerPart_lt {x : Float} {n : Int} (h : integerPart? x = some n) :
    n.natAbs < writeBound := by
  unfold integerPart? at h
  simp only at h
  split at h
  · next hbits =>
    obtain rfl := Option.some.inj h
    rw [natAbs_signed]
    exact (Nat.div_le_self _ _).trans_lt (num_value_lt hbits)
  · cases h

theorem natAbs_readInteger_lt {text : String} {n : Int} (h : readInteger text = .ok n) :
    n.natAbs < writeBound := by
  unfold readInteger at h
  simp only at h
  split at h
  · cases h
  · split at h
    · cases h
    · next hlength =>
      split at h
      · obtain rfl := Except.ok.inj h
        rw [natAbs_signed]
        refine Source.ofDigits_lt_writeBound (fun d hd => ?_) (Nat.not_lt.1 hlength)
        obtain ⟨c, -, hc⟩ := List.mem_filterMap.1 hd
        exact Text.decimalDigit?_lt hc
      · cases h

end Numeral

/-! ## JSON text -/

namespace Json

/-- No integer in the value has more digits than may be written. -/
inductive ShortIntegers : Json → Prop where
  | null : ShortIntegers .null
  | bool (b : Bool) : ShortIntegers (.bool b)
  | int {n : Int} (hn : n.natAbs < writeBound) : ShortIntegers (.int n)
  | real (x : Float) : ShortIntegers (.real x)
  | str (s : String) : ShortIntegers (.str s)
  | arr {items : List Json} (hitems : ∀ j ∈ items, ShortIntegers j) : ShortIntegers (.arr items)
  | obj {members : List (String × Json)} (hmembers : ∀ m ∈ members, ShortIntegers m.2) :
      ShortIntegers (.obj members)

variable {j value : Json} {n : Int} {cs rest : List Char} {members : Members}

theorem natAbs_toInteger_lt (hj : j.ShortIntegers) (h : j.toInteger = .ok n) :
    n.natAbs < writeBound := by
  cases hj with
  | bool b =>
    cases h
    cases b <;> exact Numeral.lt_writeBound_of_lt_ten (by decide)
  | int hn =>
    cases h
    exact hn
  | real x =>
    simp only [toInteger] at h
    split at h
    · next hx =>
      cases h
      exact Numeral.natAbs_integerPart_lt hx
    · cases h
  | str s =>
    simp only [toInteger] at h
    cases hs : Numeral.readInteger s with
    | error e =>
      rw [hs] at h
      cases h
    | ok m =>
      rw [hs] at h
      cases h
      exact Numeral.natAbs_readInteger_lt hs
  | null | arr | obj => cases h

/-- An integer is read from no more digits than it may have. -/
theorem shortIntegers_readMagnitude {negative : Bool}
    (h : readMagnitude negative cs = .ok (j, rest)) : j.ShortIntegers := by
  unfold readMagnitude at h
  simp only at h
  split at h
  · cases h
  · split at h
    · split at h
      · cases h
      · next hlength =>
        cases h
        refine .int ?_
        rw [Numeral.natAbs_signed]
        refine Source.ofDigits_lt_writeBound (fun d hd => ?_) (Nat.not_lt.1 hlength)
        obtain ⟨c, -, hc⟩ := List.mem_filterMap.1 hd
        exact Text.decimalDigit?_lt hc
    · cases h
      exact .real _

theorem shortIntegers_readNumber (h : readNumber cs = .ok (j, rest)) : j.ShortIntegers := by
  unfold readNumber at h
  split at h <;> exact shortIntegers_readMagnitude h

theorem shortIntegers_readWord (h : readWord? cs = some (j, rest)) : j.ShortIntegers := by
  unfold readWord? at h
  split at h <;> cases h
  · exact .null
  · exact .bool true
  · exact .bool false
  all_goals exact .real _

theorem shortIntegers_put (hmembers : ∀ m ∈ members, m.2.ShortIntegers) (name : String)
    (hvalue : value.ShortIntegers) : ∀ m ∈ members.put name value, m.2.ShortIntegers := by
  induction members with
  | nil => exact List.forall_mem_singleton.2 hvalue
  | cons first members ih =>
    rw [List.forall_mem_cons] at hmembers
    unfold Members.put
    split
    · exact List.forall_mem_cons.2 ⟨hvalue, hmembers.2⟩
    · exact List.forall_mem_cons.2 ⟨hmembers.1, ih hmembers.2⟩

theorem shortIntegers_ofWritten {written : List (String × Json)}
    (hwritten : ∀ m ∈ written, m.2.ShortIntegers) :
    ∀ m ∈ Members.ofWritten written, m.2.ShortIntegers := by
  have hfold : ∀ {members : Members}, (∀ m ∈ members, m.2.ShortIntegers) →
      ∀ m ∈ written.foldl (fun members m => Members.put members m.1 m.2) members,
        m.2.ShortIntegers := by
    induction written with
    | nil => exact id
    | cons first written ih =>
      rw [List.forall_mem_cons] at hwritten
      exact fun hmembers => ih hwritten.2 (shortIntegers_put hmembers first.1 hwritten.1)
  exact hfold (List.forall_mem_nil _)

/-- What the reader reads of a value, of the items of an array and of the members of an object. -/
theorem shortIntegers_reading (fuel : Nat) :
    (∀ {cs j rest}, readValue fuel cs = .ok (j, rest) → j.ShortIntegers) ∧
    (∀ {cs items rest}, readItems fuel cs = .ok (items, rest) → ∀ j ∈ items, j.ShortIntegers) ∧
    ∀ {cs members rest}, readMembers fuel cs = .ok (members, rest) →
      ∀ m ∈ members, m.2.ShortIntegers := by
  induction fuel with
  | zero => exact ⟨nofun, nofun, nofun⟩
  | succ fuel ih =>
    obtain ⟨ihvalue, ihitems, ihmembers⟩ := ih
    refine ⟨fun {cs j rest} h => ?_, fun {cs items rest} h => ?_, fun {cs members rest} h => ?_⟩
    · unfold readValue at h
      split at h
      · obtain ⟨⟨s, after⟩, -, h⟩ := map_ok h
        cases h
        exact .str s
      · split at h
        · cases h
          exact .arr (List.forall_mem_nil _)
        · obtain ⟨⟨items, after⟩, hitems, h⟩ := map_ok h
          cases h
          exact .arr (ihitems hitems)
      · split at h
        · cases h
          exact .obj (List.forall_mem_nil _)
        · obtain ⟨⟨members, after⟩, hmembers, h⟩ := map_ok h
          cases h
          exact .obj (shortIntegers_ofWritten (ihmembers hmembers))
      · split at h
        · next hword =>
          cases h
          exact shortIntegers_readWord hword
        · exact shortIntegers_readNumber h
    · unfold readItems at h
      obtain ⟨⟨item, after⟩, hitem, h⟩ := bind_ok h
      simp only at h
      split at h
      · cases h
        exact List.forall_mem_singleton.2 (ihvalue hitem)
      · obtain ⟨⟨items, after⟩, hitems, h⟩ := bind_ok h
        cases h
        exact List.forall_mem_cons.2 ⟨ihvalue hitem, ihitems hitems⟩
      · cases h
    · unfold readMembers at h
      split at h
      · obtain ⟨⟨name, after⟩, -, h⟩ := bind_ok h
        simp only at h
        split at h
        · obtain ⟨⟨value, after⟩, hvalue, h⟩ := bind_ok h
          simp only at h
          split at h
          · cases h
            exact List.forall_mem_singleton.2 (ihvalue hvalue)
          · obtain ⟨⟨members, after⟩, hmembers, h⟩ := bind_ok h
            cases h
            exact List.forall_mem_cons.2 ⟨ihvalue hvalue, ihmembers hmembers⟩
          · cases h
        · cases h
      · cases h

theorem shortIntegers_read {text : String} (h : read text = .ok j) : j.ShortIntegers := by
  unfold read at h
  obtain ⟨⟨value, rest⟩, hvalue, h⟩ := bind_ok h
  simp only at h
  split at h
  · cases h
    exact (shortIntegers_reading _).1 hvalue
  · cases h

end Json

/-! ## Trees -/

namespace Node

/-- The extents of an array that the node declares can be written. -/
def DeclaresShort : Node → Prop
  | .arrayDecl _ _ extents _ => ∀ n ∈ extents, n.natAbs < writeBound
  | _ => True

/-- The extents of all arrays that are declared within the node can be written. -/
def ShortExtents (n : Node) : Prop :=
  ∀ s, n.Contains s → s.DeclaresShort

variable {n s : Node} {ns : List Node} {parts : Parts} {name : String}

theorem ShortExtents.part (hn : n.ShortExtents) (hs : s ∈ n.parts) : s.ShortExtents :=
  fun t hcontains => hn t (Relation.ReflTransGen.head hs hcontains)

theorem ShortExtents.of_parts (hself : n.DeclaresShort) (hparts : ∀ s ∈ n.parts, s.ShortExtents) :
    n.ShortExtents := by
  intro t hcontains
  rcases Relation.ReflTransGen.cases_head hcontains with rfl | ⟨s, hs, hcontains⟩
  · exact hself
  · exact hparts s hs t hcontains

theorem ShortExtents.of_noParts (hself : n.DeclaresShort) (hnone : n.parts = []) :
    n.ShortExtents :=
  .of_parts hself fun s hs => by
    rw [hnone] at hs
    cases hs

theorem shortExtents_missing : ShortExtents .missing :=
  .of_noParts trivial rfl

/-! ### Trees from source text -/

theorem shortExtents_of_isStatement {isName : String → Prop} (hn : Source.IsStatement isName n) :
    n.ShortExtents := by
  induction hn with
  | arrayDecl _ _ _ hextents _ => exact .of_noParts (fun n hn => (hextents n hn).2) rfl
  | ifThen _ _ ih =>
    exact .of_parts trivial (List.forall_mem_singleton.2 (.of_parts trivial ih))
  | ifElse _ _ _ hbranch ihbody ihelse =>
    refine .of_parts trivial fun s hs => ?_
    simp only [Node.parts, statements] at hs
    split at hs
    · exact List.mem_singleton.1 hs ▸ .of_parts trivial ihbody
    · rcases List.mem_pair.1 hs with rfl | rfl
      · exact .of_parts trivial ihbody
      · exact ihelse
  | whileStmt _ _ ih =>
    exact .of_parts trivial (List.forall_mem_singleton.2 (.of_parts trivial ih))
  | routineDecl _ _ _ ih | block _ ih => exact .of_parts trivial ih
  | _ => exact .of_noParts trivial rfl

/-- A source text has no longer numeral as an extent. -/
theorem shortExtents_of_parse {source : String} (hparse : Source.parse source = .ok n) :
    n.ShortExtents := by
  obtain ⟨hbody⟩ := Source.isProgram_of_parse hparse
  exact .of_parts trivial fun s hs => shortExtents_of_isStatement (hbody s hs)

/-! ### Trees from JSON -/

/-- What is read from the parts has extents that can be written. -/
structure Parts.Short (parts : Parts) : Prop where
  raw : ∀ {name part}, parts.lookup name = some part → part.raw.ShortIntegers
  node : ∀ {name part n}, parts.lookup name = some part → part.node = .ok n → n.ShortExtents
  nodes : ∀ {name part ns}, parts.lookup name = some part → part.nodes = .ok ns →
    ∀ n ∈ ns, n.ShortExtents

theorem lookup_of_get {part : Part} (h : parts.get name = .ok part) :
    parts.lookup name = some part := by
  unfold Parts.get at h
  split at h
  · next hpart =>
    cases h
    exact hpart
  · cases h

theorem shortExtents_of_binary {cls : BinaryClass} (h : parts.binary cls = .ok n) :
    n.ShortExtents := by
  obtain ⟨op, -, h⟩ := bind_ok h
  obtain ⟨left, -, h⟩ := bind_ok h
  obtain ⟨right, -, h⟩ := bind_ok h
  cases h
  exact .of_noParts trivial rfl

namespace Parts.Short

variable (hparts : parts.Short)
include hparts

theorem of_node (h : parts.node name = .ok n) : n.ShortExtents := by
  obtain ⟨part, hpart, h⟩ := bind_ok h
  exact hparts.node (lookup_of_get hpart) h

theorem of_nodes (h : parts.nodes name = .ok ns) : ∀ n ∈ ns, n.ShortExtents := by
  obtain ⟨part, hpart, h⟩ := bind_ok h
  exact hparts.nodes (lookup_of_get hpart) h

theorem of_nodeOrMissing (h : parts.nodeOrMissing name = .ok n) : n.ShortExtents := by
  unfold Parts.nodeOrMissing at h
  split at h
  · next hpart => exact hparts.node hpart h
  · cases h
    exact shortExtents_missing

theorem of_extents {extents : List Int} (h : parts.extents name = .ok extents) :
    ∀ n ∈ extents, n.natAbs < writeBound := by
  intro n hn
  obtain ⟨part, hpart, h⟩ := bind_ok h
  obtain ⟨items, hitems, h⟩ := bind_ok h
  have hraw := hparts.raw (lookup_of_get hpart)
  have hshort : ∀ j ∈ items, j.ShortIntegers := by
    -- the characters of a string and the names of an object are strings
    unfold itemsOf at hitems
    split at hitems <;> cases hitems
    · next hj =>
      rw [hj] at hraw
      cases hraw with
      | arr hitems => exact hitems
    · exact List.forall_mem_map.2 fun c _ => .str _
    · exact List.forall_mem_map.2 fun m _ => .str _
  obtain ⟨j, hj, hextent⟩ := exists_of_mem_mapM h hn
  unfold extentOf at hextent
  cases hinteger : j.toInteger with
  | error e =>
    rw [hinteger] at hextent
    cases hextent
  | ok m =>
    rw [hinteger] at hextent
    cases hextent
    exact Json.natAbs_toInteger_lt (hshort j hj) hinteger

theorem of_routine {kind : RoutineKind} (h : parts.routine kind = .ok n) : n.ShortExtents := by
  obtain ⟨label, -, h⟩ := bind_ok h
  obtain ⟨params, -, h⟩ := bind_ok h
  obtain ⟨body, hbody, h⟩ := bind_ok h
  cases h
  exact .of_parts trivial (hparts.of_nodes hbody)

/-- Of the nodes only a declaration of an array has extents of its own, and only those with bodies
or branches have statements below them. -/
theorem of_assemble {kind : String} (h : parts.assemble kind = .ok n) : n.ShortExtents := by
  unfold Parts.assemble at h
  -- the cases stand in the order of the kinds in `Parts.assemble`
  split at h
  · obtain ⟨body, hbody, h⟩ := bind_ok h
    cases h
    exact .of_parts trivial (hparts.of_nodes hbody)
  · obtain ⟨body, hbody, h⟩ := bind_ok h
    cases h
    exact .of_parts trivial (hparts.of_nodes hbody)
  · obtain ⟨tag, -, h⟩ := bind_ok h
    obtain ⟨label, -, h⟩ := bind_ok h
    obtain ⟨init, -, h⟩ := bind_ok h
    cases h
    exact .of_noParts trivial rfl
  · obtain ⟨label, -, h⟩ := bind_ok h
    obtain ⟨elem, -, h⟩ := bind_ok h
    obtain ⟨extents, hextents, h⟩ := bind_ok h
    obtain ⟨init, -, h⟩ := bind_ok h
    cases h
    exact .of_noParts (hparts.of_extents hextents) rfl
  · obtain ⟨label, -, h⟩ := bind_ok h
    obtain ⟨value, -, h⟩ := bind_ok h
    cases h
    exact .of_noParts trivial rfl
  · obtain ⟨label, -, h⟩ := bind_ok h
    obtain ⟨indices, -, h⟩ := bind_ok h
    obtain ⟨value, -, h⟩ := bind_ok h
    cases h
    exact .of_noParts trivial rfl
  · obtain ⟨condition, -, h⟩ := bind_ok h
    obtain ⟨thenBranch, hthen, h⟩ := bind_ok h
    obtain ⟨elseBranch, helse, h⟩ := bind_ok h
    cases h
    refine .of_parts trivial fun s hs => ?_
    have hthen := hparts.of_node hthen
    have helse := hparts.of_nodeOrMissing helse
    simp only [Node.parts, statements] at hs
    split at hs
    -- an `if` without `else` has one branch
    · exact List.mem_singleton.1 hs ▸ hthen
    · rcases List.mem_pair.1 hs with rfl | rfl
      · exact hthen
      · exact helse
  · obtain ⟨condition, -, h⟩ := bind_ok h
    obtain ⟨body, hbody, h⟩ := bind_ok h
    cases h
    exact .of_parts trivial (List.forall_mem_singleton.2 (hparts.of_node hbody))
  · exact hparts.of_routine h
  · exact hparts.of_routine h
  · obtain ⟨value, -, h⟩ := bind_ok h
    cases h
    exact .of_noParts trivial rfl
  · obtain ⟨value, -, h⟩ := bind_ok h
    cases h
    exact .of_noParts trivial rfl
  · obtain ⟨text, -, h⟩ := bind_ok h
    obtain ⟨kind, -, h⟩ := bind_ok h
    cases h
    exact .of_noParts trivial rfl
  · obtain ⟨label, -, h⟩ := bind_ok h
    cases h
    exact .of_noParts trivial rfl
  · exact shortExtents_of_binary h
  · exact shortExtents_of_binary h
  · exact shortExtents_of_binary h
  · obtain ⟨label, -, h⟩ := bind_ok h
    obtain ⟨indices, -, h⟩ := bind_ok h
    cases h
    exact .of_noParts trivial rfl
  · obtain ⟨label, -, h⟩ := bind_ok h
    obtain ⟨args, -, h⟩ := bind_ok h
    cases h
    exact .of_noParts trivial rfl
  · cases h

theorem of_toNode (h : parts.toNode = .ok n) : n.ShortExtents := by
  unfold Parts.toNode at h
  split at h
  · cases h
  · split at h
    · exact hparts.of_assemble h
    all_goals cases h

end Parts.Short

theorem exists_of_lookup_partsOf {members : List (String × Json)} {part : Part}
    (h : (partsOf members).lookup name = some part) :
    ∃ m ∈ members, part = ⟨m.2, ofJson m.2, ofJsonItems m.2⟩ := by
  induction members with
  | nil => cases h
  | cons first members ih =>
    rw [lookup_partsOf] at h
    split at h
    · cases h
      exact ⟨first, List.mem_cons_self, rfl⟩
    · obtain ⟨m, hm, hpart⟩ := ih h
      exact ⟨m, List.mem_cons_of_mem first hm, hpart⟩

theorem exists_of_mem_ofJsonList {items : List Json} (h : ofJsonList items = .ok ns) (hn : n ∈ ns) :
    ∃ j ∈ items, ofJson j = .ok n := by
  induction items generalizing ns with
  | nil =>
    cases h
    cases hn
  | cons j items ih =>
    obtain ⟨n', hn', h⟩ := bind_ok h
    obtain ⟨ns', hns', h⟩ := bind_ok h
    cases h
    rcases List.mem_cons.1 hn with rfl | hn
    · exact ⟨j, List.mem_cons_self, hn'⟩
    · obtain ⟨i, hi, hread⟩ := ih hns' hn
      exact ⟨i, List.mem_cons_of_mem j hi, hread⟩

theorem shortExtents_reading {j : Json} (hj : j.ShortIntegers) :
    (∀ {n}, ofJson j = .ok n → n.ShortExtents) ∧
    ∀ {ns}, ofJsonItems j = .ok ns → ∀ n ∈ ns, n.ShortExtents := by
  induction hj with
  | null =>
    refine ⟨fun h => ?_, nofun⟩
    cases h
    exact shortExtents_missing
  | bool | int | real => exact ⟨nofun, nofun⟩
  | str s =>
    refine ⟨nofun, fun h => ?_⟩
    simp only [ofJsonItems] at h
    split at h <;> cases h
    exact List.forall_mem_nil _
  | arr hitems ih =>
    refine ⟨nofun, fun h n hn => ?_⟩
    obtain ⟨j, hj, hread⟩ := exists_of_mem_ofJsonList h hn
    exact (ih j hj).1 hread
  | @obj members hmembers ih =>
    constructor
    · intro n h
      suffices hparts : (partsOf members).Short from hparts.of_toNode h
      refine ⟨?_, ?_, ?_⟩
      · intro name part hpart
        obtain ⟨m, hm, rfl⟩ := exists_of_lookup_partsOf hpart
        exact hmembers m hm
      · intro name part n hpart hread
        obtain ⟨m, hm, rfl⟩ := exists_of_lookup_partsOf hpart
        exact (ih m hm).1 hread
      · intro name part ns hpart hread
        obtain ⟨m, hm, rfl⟩ := exists_of_lookup_partsOf hpart
        exact (ih m hm).2 hread
    · intro ns h
      simp only [ofJsonItems] at h
      split at h <;> cases h
      exact List.forall_mem_nil _

/-- Nor has a tree from JSON text. -/
theorem shortExtents_of_ofJson {text : String} {j : Json} (hread : Json.read text = .ok j)
    (hload : ofJson j = .ok n) : n.ShortExtents :=
  (shortExtents_reading (Json.shortIntegers_read hread)).1 hload

end Node

end MiniAlgol
