import Mathlib.Data.Nat.Digits.Defs
import MiniAlgol.Proofs.Run.Actions
import MiniAlgol.Proofs.Source.Literals
import MiniAlgol.Proofs.Source.Writer

/-!
# Integer arithmetic

A calculation is built from integer numerals with the four operations. Its value is a matter of the
integers alone (`Calculation.Yields`), and there is one unless some division met from left to right
is by zero (`Calculation.DividesByZero`). The program `write(e);` for a calculation `e` prints the
value, or stops with that error and prints nothing (`write_calculation`): the tokens of the
calculation may stand next to each other (`Calculation.joined`), so its text is read back as the
calculation however blanks are put, and evaluating it gives its value (`Yields.evaluate`).
-/

namespace MiniAlgol

open Source

/-! ## Calculations -/

/-- An integer numeral with no more digits than are read. -/
structure IntegerNumeral where
  text : List Char
  isDigits : Terminal.IsDigits text
  short : (text.filterMap Text.decimalDigit?).length ≤ Numeral.maxDigits

namespace IntegerNumeral

/-- The value of the digits, of which the last one counts the ones. -/
def value (n : IntegerNumeral) : Nat :=
  Nat.ofDigits 10 (n.text.filterMap Text.decimalDigit?).reverse

def token (n : IntegerNumeral) : Token :=
  ⟨.intLit, n.text⟩

end IntegerNumeral

namespace Arithmetic

def cls : Arithmetic → BinaryClass
  | add | subtract => .additive
  | multiply | divide => .multiplicative

def token : Arithmetic → Token
  | add => ⟨.addOp, ['+']⟩
  | subtract => ⟨.addOp, ['-']⟩
  | multiply => ⟨.mulOp, ['*']⟩
  | divide => ⟨.mulOp, ['/']⟩

/-- `v` is the result of the operation. A quotient is that of the division with a remainder that is
zero or has the sign of the dividend. -/
def Gives : Arithmetic → Int → Int → Int → Prop
  | add, a, b, v => v = a + b
  | subtract, a, b, v => v = a - b
  | multiply, a, b, v => v = a * b
  | divide, a, b, v => ∃ r, a = v * b + r ∧ r.natAbs < b.natAbs ∧ (r = 0 ∨ r.sign = a.sign)

end Arithmetic

/-- An expression of integer numerals and arithmetic operations. -/
inductive Calculation where
  | numeral (n : IntegerNumeral)
  | operate (op : Arithmetic) (left right : Calculation)

namespace Calculation

/-- The tree of a calculation. -/
def toNode : Calculation → Node
  | numeral n => .literal (label n.token) "int"
  | operate op left right => .binary op.cls (label op.token) left.toNode right.toNode

/-- The tokens of `write(e);`, with parentheses in `e` only around an operand that binds more weakly
than its place. -/
def writeTokens (e : Calculation) : List Token :=
  nameToken "write" :: Source.sign .leftParen
    :: (expressionTokens e.toNode ++ [Source.sign .rightParen, Source.sign .semicolon])

/-- The tree of `write(e);`. -/
def writeStatement (e : Calculation) : Node :=
  .exprStmt (.call "write" [e.toNode])

/-- How deep operations are nested. -/
def height : Calculation → Nat
  | numeral _ => 1
  | operate _ left right => max left.height right.height + 1

/-- The value of a calculation. -/
inductive Yields : Calculation → Int → Prop where
  | numeral (n : IntegerNumeral) : Yields (numeral n) n.value
  | operate {op : Arithmetic} {left right : Calculation} {a b v : Int} (hleft : left.Yields a)
      (hright : right.Yields b) (hop : op.Gives a b v) : Yields (operate op left right) v

/-- The first division that is met from left to right and is by zero divides `a`. -/
inductive DividesByZero : Calculation → Int → Prop where
  | left {op : Arithmetic} {left right : Calculation} {a : Int} (hleft : left.DividesByZero a) :
      DividesByZero (operate op left right) a
  | right {op : Arithmetic} {left right : Calculation} {a b : Int} (hleft : left.Yields b)
      (hright : right.DividesByZero a) : DividesByZero (operate op left right) a
  | here {left right : Calculation} {a : Int} (hleft : left.Yields a) (hright : right.Yields 0) :
      DividesByZero (operate .divide left right) a

end Calculation

/-! ## Values -/

/-- The quotient with such a remainder is the one rounded toward zero. -/
theorem Arithmetic.gives_divide_iff {a b v : Int} :
    divide.Gives a b v ↔ b ≠ 0 ∧ v = a.tdiv b := by
  constructor
  · rintro ⟨r, ha, hlt, hr⟩
    have hb : b ≠ 0 := by omega
    refine ⟨hb, ?_⟩
    rw [Int.mul_comm, Int.add_comm] at ha
    -- the remainder is on the side of zero on which the dividend is
    rcases Int.le_total 0 a with hpos | hneg
    · have hr : 0 ≤ r := by
        rcases hr with rfl | hr
        · exact le_rfl
        · rw [← Int.sign_nonneg_iff, hr, Int.sign_nonneg_iff]
          exact hpos
      exact ((Int.tdiv_tmod_unique hpos hb).2 ⟨ha.symm, hr, by omega⟩).1.symm
    · have hr : r ≤ 0 := by
        rcases hr with rfl | hr
        · exact le_rfl
        · rw [← Int.sign_nonpos_iff, hr, Int.sign_nonpos_iff]
          exact hneg
      exact ((Int.tdiv_tmod_unique' hneg hb).2 ⟨ha.symm, by omega, hr⟩).1.symm
  · rintro ⟨hb, rfl⟩
    refine ⟨a.tmod b, (Int.tdiv_mul_add_tmod a b).symm, ?_, ?_⟩
    · rw [Int.natAbs_tmod]
      exact Nat.mod_lt _ (by omega)
    · rw [Int.sign_tmod]
      split
      · next hdvd => exact .inl (Int.tmod_eq_zero_of_dvd hdvd)
      · exact .inr rfl

variable {e : Calculation} {op : Arithmetic} {a b v w : Int}

theorem Arithmetic.Gives.unique (hv : op.Gives a b v) (hw : op.Gives a b w) : v = w := by
  cases op with
  | divide =>
    rw [gives_divide_iff] at hv hw
    rw [hv.2, hw.2]
  | _ => exact Eq.trans hv hw.symm

/-- Only a division by zero has no result. -/
theorem Arithmetic.exists_gives (op : Arithmetic) (a b : Int) :
    (∃ v, op.Gives a b v) ∨ op = divide ∧ b = 0 := by
  cases op with
  | add | subtract | multiply => exact .inl ⟨_, rfl⟩
  | divide =>
    by_cases hb : b = 0
    · exact .inr ⟨rfl, hb⟩
    · exact .inl ⟨_, gives_divide_iff.2 ⟨hb, rfl⟩⟩

namespace Calculation

theorem Yields.unique (hv : e.Yields v) (hw : e.Yields w) : v = w := by
  induction hv generalizing w with
  | numeral n =>
    cases hw
    rfl
  | operate _ _ hop ihleft ihright =>
    cases hw with
    | operate hleft hright hop' =>
      cases ihleft hleft
      cases ihright hright
      exact hop.unique hop'

theorem DividesByZero.not_yields (ha : e.DividesByZero a) (v : Int) : ¬ e.Yields v := by
  induction ha generalizing v with
  | left _ ih =>
    rintro (_ | ⟨hleft, -, -⟩)
    exact ih _ hleft
  | right _ _ ih =>
    rintro (_ | ⟨-, hright, -⟩)
    exact ih _ hright
  | here _ hright =>
    rintro (_ | ⟨-, hright', hop⟩)
    cases hright.unique hright'
    exact (Arithmetic.gives_divide_iff.1 hop).1 rfl

theorem exists_yields (e : Calculation) : (∃ v, e.Yields v) ∨ ∃ a, e.DividesByZero a := by
  induction e with
  | numeral n => exact .inl ⟨_, .numeral n⟩
  | operate op left right ihleft ihright =>
    rcases ihleft with ⟨a, hleft⟩ | ⟨a, hleft⟩
    · rcases ihright with ⟨b, hright⟩ | ⟨b, hright⟩
      · rcases op.exists_gives a b with ⟨v, hop⟩ | ⟨rfl, rfl⟩
        · exact .inl ⟨v, .operate hleft hright hop⟩
        · exact .inr ⟨a, .here hleft hright⟩
      · exact .inr ⟨b, .right hleft hright⟩
    · exact .inr ⟨a, .left hleft⟩

end Calculation

/-! ## Texts -/

/-- The token starts an operand. -/
def OpensOperand (t : Token) : Prop :=
  t.terminal = .intLit ∨ t.terminal = .leftParen

/-- The token ends an operand. -/
def ClosesOperand (t : Token) : Prop :=
  t.terminal = .intLit ∨ t.terminal = .rightParen

theorem ClosesOperand.borders {t u : Token} (ht : ClosesOperand t)
    (hu : ∀ c, u.terminal.opens c → c ≠ '.' ∧ Text.isDecimalDigit c = false) : Borders t u := by
  intro c hc
  obtain ⟨hpoint, hdigit⟩ := hu c hc
  rcases ht with ht | ht
  · rw [ht]
    simp [Terminal.endedBy, hdigit, hpoint]
  · rw [ht]
    rfl

/-- No sign of an operator goes on with a numeral. -/
theorem Arithmetic.ne_of_opens (op : Arithmetic) {c : Char} (hc : op.token.terminal.opens c) :
    c ≠ '.' ∧ Text.isDecimalDigit c = false := by
  cases op <;> simp only [token, Terminal.opens, Bool.or_eq_true, beq_iff_eq] at hc <;>
    rcases hc with rfl | rfl <;> decide

theorem ClosesOperand.borders_operator {t : Token} (ht : ClosesOperand t) (op : Arithmetic) :
    Borders t op.token :=
  ht.borders fun _ hc => op.ne_of_opens hc

theorem ClosesOperand.borders_rightParen {t : Token} (ht : ClosesOperand t) :
    Borders t (sign .rightParen) := by
  refine ht.borders fun c hc => ?_
  have hc : (some ')' == some c) = true := hc
  cases beq_iff_eq.1 hc
  decide

/-- No operand starts with a slash, which would make a comment after a slash. -/
theorem OpensOperand.operator_borders {u : Token} (hu : OpensOperand u) (op : Arithmetic) :
    Borders op.token u := by
  intro c hc
  have hslash : c ≠ '/' := by
    rintro rfl
    rcases hu with hu | hu
    · rw [hu] at hc
      exact absurd hc (by decide)
    · rw [hu] at hc
      exact absurd hc (by decide)
  cases op <;> simp [Arithmetic.token, Terminal.endedBy, hslash]

/-- The tokens border on each other, and start and end like an operand. -/
structure Joined (ts : List Token) : Prop where
  borders : ts.IsChain Borders
  first : ∃ t ∈ ts.head?, OpensOperand t
  last : ∃ t ∈ ts.getLast?, ClosesOperand t

namespace Joined

variable {ts us : List Token} {l : Level} {x : Node}

theorem numeral (n : IntegerNumeral) : Joined [n.token] where
  borders := .singleton _
  first := ⟨n.token, rfl, .inl rfl⟩
  last := ⟨n.token, rfl, .inl rfl⟩

theorem operate (hts : Joined ts) (hus : Joined us) (op : Arithmetic) :
    Joined (ts ++ op.token :: us) := by
  obtain ⟨first, hfirst, hopens⟩ := hts.first
  obtain ⟨last, hlast, hcloses⟩ := hus.last
  obtain ⟨next, hnext, hopensNext⟩ := hus.first
  obtain ⟨before, hbefore, hclosesBefore⟩ := hts.last
  refine ⟨?_, ⟨first, ?_, hopens⟩, ⟨last, ?_, hcloses⟩⟩
  · refine List.isChain_append.2 ⟨hts.borders, List.isChain_cons.2 ⟨?_, hus.borders⟩, ?_⟩
    · intro u hu
      cases Option.mem_unique hu hnext
      exact hopensNext.operator_borders op
    · intro t ht u hu
      cases hu
      cases Option.mem_unique ht hbefore
      exact hclosesBefore.borders_operator op
  · exact List.mem_head?_append_of_mem_head? hfirst
  · exact List.mem_getLast?_append_of_mem_getLast? (List.mem_getLast?_cons hlast)

/-- In parentheses, with anything after them that may follow them. -/
theorem between (hts : Joined ts) (hus : (sign .rightParen :: us).IsChain Borders) :
    (sign .leftParen :: (ts ++ sign .rightParen :: us)).IsChain Borders := by
  obtain ⟨last, hlast, hcloses⟩ := hts.last
  refine List.isChain_cons.2 ⟨fun _ _ _ _ => rfl, List.isChain_append.2 ⟨hts.borders, hus, ?_⟩⟩
  intro t ht u hu
  cases hu
  cases Option.mem_unique ht hlast
  exact hcloses.borders_rightParen

theorem group (hts : Joined ts) : Joined (sign .leftParen :: (ts ++ [sign .rightParen])) where
  borders := hts.between (.singleton _)
  first := ⟨sign .leftParen, rfl, .inr rfl⟩
  last := by
    refine ⟨sign .rightParen, ?_, .inr rfl⟩
    exact List.mem_getLast?_cons (List.mem_getLast?_append_of_mem_getLast? rfl)

theorem placed (hts : Joined ts) : Joined (placed l x ts) := by
  unfold Source.placed
  split
  · exact hts.group
  · exact hts

end Joined

namespace Calculation

theorem isExpression (e : Calculation) : IsExpression IsIdentifier e.toNode := by
  induction e with
  | numeral n => exact .literal (t := n.token) n.isDigits rfl
  | operate op left right ihleft ihright =>
    refine .binary ?_ ?_ ihleft ihright
    · cases op <;> simp [Arithmetic.token, Token.Fits, Terminal.Takes]
    · cases op <;> rfl

/-- The tokens of a calculation may stand next to each other. -/
theorem joined (e : Calculation) : Joined (expressionTokens e.toNode) := by
  induction e with
  | numeral n =>
    have htokens : expressionTokens (numeral n).toNode = [n.token] :=
      (expressionTokens_literal (t := n.token) n.isDigits rfl).1
    rw [htokens]
    exact .numeral n
  | operate op left right ihleft ihright =>
    have hcls : operatorClass? op.token.terminal = some op.cls := by cases op <;> rfl
    rw [toNode, expressionTokens, operatorToken_label hcls]
    exact ihleft.placed.operate ihright.placed op

theorem writeTokens_eq (e : Calculation) : statementTokens e.writeStatement = e.writeTokens := by
  simp [writeStatement, statementTokens, expressionTokens, separated, writeTokens]

theorem borders_writeTokens (e : Calculation) : e.writeTokens.IsChain Borders := by
  have hend : [Source.sign .rightParen, Source.sign .semicolon].IsChain Borders :=
    List.isChain_cons.2 ⟨fun _ _ _ _ => rfl, .singleton _⟩
  refine List.isChain_cons.2 ⟨fun u hu c hc => ?_, e.joined.between hend⟩
  cases hu
  have hc : (some '(' == some c) = true := hc
  cases beq_iff_eq.1 hc
  decide

theorem isIdentifier_write : IsIdentifier "write" :=
  ⟨⟨'w', ['r', 'i', 't', 'e'], rfl, by decide, List.all_eq_true.1 (by decide)⟩, by decide⟩

/-- The program is read from its text, whether or not there are blanks between the tokens. -/
theorem parse_writeTokens (e : Calculation) {cs : List Char} (hcs : Laid cs e.writeTokens) :
    parse (String.ofList cs) = .ok (.program [e.writeStatement]) := by
  have hstatement : IsStatement IsIdentifier e.writeStatement :=
    .exprStmt (.call isIdentifier_write (List.forall_mem_singleton.2 e.isExpression))
  have hderives := Derives.nil.concat hstatement.clause
  have hspelled := hstatement.spelled
  rw [writeTokens_eq] at hderives hspelled
  have hfits : ∀ t ∈ e.writeTokens, t.Fits := fun t ht => (hspelled t ht).1
  have hparted := hcs.parted hfits e.borders_writeTokens
  refine hderives.parse_parted hfits (fun t ht hident => ?_) hparted
  have hname := ((hspelled t ht).2 hident).2
  rwa [label, String.toList_ofList] at hname

end Calculation

/-! ## Evaluation -/

theorem IntegerNumeral.value_eq (n : IntegerNumeral) :
    n.value = Numeral.ofDigits (n.text.filterMap Text.decimalDigit?) := by
  rw [value, Nat.ofDigits_eq_foldr, List.foldr_reverse, Numeral.ofDigits]
  simp only [Nat.cast_id, Nat.add_comm]

theorem IntegerNumeral.literalValue_eq (n : IntegerNumeral) :
    literalValue (label n.token) "int" = .ok (.int n.value) := by
  have hread : Numeral.readInteger (label n.token) = .ok n.value := by
    rw [label, token, readInteger_digits n.isDigits, if_neg (Nat.not_lt.2 n.short), value_eq]
  rw [literalValue_int, hread]
  rfl

/-- The decimal form of an integer is its usual one. -/
theorem decimal_eq (n : Int) : Numeral.decimal n = toString n := by
  cases n with
  | ofNat k =>
    rw [Numeral.decimal, if_neg (by simp)]
    rfl
  | negSucc k =>
    rw [Numeral.decimal, if_pos (Int.negSucc_lt_zero k)]
    rfl

theorem integerText_eq {n : Int} (hn : n.natAbs < Numeral.writeBound) :
    integerText n = .ok (toString n) := by
  rw [integerText, Numeral.writeInteger, if_pos hn, decimal_eq]

/-- Only an integer that is too long has no text. -/
theorem le_natAbs_of_integerText {n : Int} {f : Fault} (h : integerText n = .error f) :
    Numeral.writeBound ≤ n.natAbs := by
  by_contra hshort
  rw [integerText_eq (Nat.not_le.1 hshort)] at h
  cases h

theorem plainText_int (heap : Heap) {n : Int} (hn : n.natAbs < Numeral.writeBound) :
    (Value.int n).plainText heap = .ok (toString n) := by
  rw [← integerText_eq hn, Value.plainText]
  cases heap.size <;> rfl

theorem Arithmetic.Gives.apply_eq (hop : op.Gives a b v) (heap : Heap) :
    (Value.int a).apply heap (label op.token) (.int b) = .ok (.int v) := by
  cases op with
  | divide =>
    obtain ⟨hb, rfl⟩ := gives_divide_iff.1 hop
    have hquotient : truncatedQuotient a b = .ok (a.tdiv b) := if_neg hb
    have hzero : (Value.int b).isZero = false := beq_eq_false_iff_ne.2 hb
    show Value.applySign heap "/" (.int a) (.int b) = _
    simp only [Value.applySign, Operator.ofSign?, hzero, Bool.false_eq_true, if_false,
      Value.arithmetic, onIntegers, hquotient]
    rfl
  | add | subtract | multiply =>
    cases hop
    rfl

theorem apply_zero (heap : Heap) (ha : a.natAbs < Numeral.writeBound) :
    (Value.int a).apply heap (label Arithmetic.divide.token) (.int 0)
      = .error (.divisionByZero "/" (toString a) (.int a)) := by
  show Value.applySign heap "/" (.int a) (.int 0) = _
  have hzero : (Value.int 0).isZero = true := rfl
  simp only [Value.applySign, Operator.ofSign?, hzero, if_true, plainText_int heap ha]
  rfl

/-- The operands are evaluated from left to right, and then the operator is applied. -/
theorem evaluate_binary (fuel : Nat) (cls : BinaryClass) (sign : Label) (l r : Node) :
    evaluate (fuel + 1) (.binary cls sign l r) = (do
      let x ← evaluate fuel l
      let y ← evaluate fuel r
      operate sign x y) :=
  rfl

theorem on_operate (sign : Label) (x y : Value) (m : Machine) :
    (operate sign x y).on m = (Action.lift (x.apply m.heap sign y)).on m :=
  rfl

namespace Calculation

variable {fuel : Nat}

theorem exists_fuel {left right : Calculation} (hfuel : (operate op left right).height ≤ fuel) :
    ∃ k, fuel = k + 1 ∧ left.height ≤ k ∧ right.height ≤ k := by
  rw [height] at hfuel
  exact ⟨fuel - 1, by omega, by omega, by omega⟩

theorem Yields.evaluate (hv : e.Yields v) (hfuel : e.height ≤ fuel) (m : Machine) :
    (evaluate fuel e.toNode).on m = (.ok (.int v), m) := by
  induction hv generalizing fuel with
  | numeral n =>
    obtain ⟨fuel, rfl⟩ := Nat.exists_eq_add_of_le' hfuel
    show (Action.lift (literalValue (label n.token) "int")).on m = _
    rw [n.literalValue_eq, Action.on_lift_ok]
  | operate _ _ hop ihleft ihright =>
    obtain ⟨fuel, rfl, hl, hr⟩ := exists_fuel hfuel
    simp only [toNode, evaluate_binary, Action.on_bind, ihleft hl, ihright hr]
    rw [on_operate, hop.apply_eq, Action.on_lift_ok]

theorem DividesByZero.evaluate (ha : e.DividesByZero a) (hshort : a.natAbs < Numeral.writeBound)
    (hfuel : e.height ≤ fuel) (m : Machine) :
    (evaluate fuel e.toNode).on m
      = (.error (.fault (.divisionByZero "/" (toString a) (.int a))), m) := by
  induction ha generalizing fuel with
  | left _ ih =>
    obtain ⟨fuel, rfl, hl, -⟩ := exists_fuel hfuel
    simp only [toNode, evaluate_binary, Action.on_bind, ih hshort hl]
  | right hleft _ ih =>
    obtain ⟨fuel, rfl, hl, hr⟩ := exists_fuel hfuel
    simp only [toNode, evaluate_binary, Action.on_bind, hleft.evaluate hl, ih hshort hr]
  | here hleft hright =>
    obtain ⟨fuel, rfl, hl, hr⟩ := exists_fuel hfuel
    simp only [toNode, evaluate_binary, Action.on_bind, hleft.evaluate hl, hright.evaluate hr]
    rw [on_operate, apply_zero _ hshort, Action.on_lift_error]

theorem height_pos (e : Calculation) : 0 < e.height := by
  cases e with
  | numeral n => exact Nat.one_pos
  | operate op left right => exact Nat.succ_pos _

end Calculation

/-! ## Programs -/

section Writing

variable {fuel : Nat} {x : Node} {m : Machine}

/-- The argument is evaluated, and then `write` is called. -/
theorem executeAll_writeCall (fuel : Nat) (x : Node) :
    executeAll (fuel + 4) [.exprStmt (.call "write" [x])] = (do
      let v ← evaluate (fuel + 1) x
      let _ ← invoke (fuel + 1) "write" [v]
      return ()) := by
  have hcall : evaluate (fuel + 2) (.call "write" [x]) = (do
      let vs ← collect (evaluate (fuel + 1)) [x]
      invoke (fuel + 1) "write" vs) := rfl
  have hexecute : execute (fuel + 3) (.exprStmt (.call "write" [x])) = (do
      let v ← evaluate (fuel + 2) (.call "write" [x])
      return some v) := rfl
  simp only [executeAll, forEach, hexecute, hcall, collect, bind_assoc, pure_bind]

/-- Calling `write` prints the text of its argument on a line. -/
theorem on_invoke_write {v : Value} {s : String} (hscope : m.scope = Scope.builtins)
    (htext : v.plainText m.heap = .ok s) :
    (invoke (fuel + 1) "write" [v]).on m
      = (.ok .undefined, { m with printed := s :: m.printed }) := by
  have hwrite : m.scope.get? (Name.ofWord "write").key = some (.builtin 0 ⟨"write", none⟩) := by
    rw [hscope]
    rfl
  rw [invoke_succ, Action.on_bind, on_callee (Name.ofLabel_word "write") hwrite]
  simp only [callValue, callBuiltin, printValues, Action.plainText, Action.on_bind, Action.on_get,
    htext, Action.on_lift_ok, Action.on_pure, Action.print, Action.on_modify]

theorem on_executeAll_write {v : Value} {s : String} (hscope : m.scope = Scope.builtins)
    (hx : (evaluate (fuel + 1) x).on m = (.ok v, m)) (htext : v.plainText m.heap = .ok s) :
    (executeAll (fuel + 4) [.exprStmt (.call "write" [x])]).on m
      = (.ok (), { m with printed := s :: m.printed }) := by
  simp only [executeAll_writeCall, Action.on_bind, hx, on_invoke_write hscope htext,
    Action.on_pure]

theorem on_executeAll_write_error {stop : Stop}
    (hx : (evaluate (fuel + 1) x).on m = (.error stop, m)) :
    (executeAll (fuel + 4) [.exprStmt (.call "write" [x])]).on m = (.error stop, m) := by
  simp only [executeAll_writeCall, Action.on_bind, hx]

end Writing

namespace Calculation

variable {fuel : Nat}

theorem exists_fuel_write (hfuel : e.height + 3 ≤ fuel) : ∃ k, fuel = k + 4 ∧ e.height ≤ k + 1 := by
  have hpos := e.height_pos
  exact ⟨fuel - 4, by omega, by omega⟩

theorem Yields.run (hv : e.Yields v) (hshort : v.natAbs < Numeral.writeBound)
    (hfuel : e.height + 3 ≤ fuel) (level : Int) :
    ∃ m, (runProgram fuel (.program [e.writeStatement])).on { level := level } = (.ok (), m) ∧
      m.output = toString v ++ "\n" := by
  obtain ⟨fuel, rfl, hheight⟩ := exists_fuel_write hfuel
  obtain ⟨traced, tracing, runs, hstart⟩ := exists_on_startRun { level := level }
  have hbody : programBody (.program [e.writeStatement]) = .ok [e.writeStatement] := rfl
  rw [on_runProgram _ hbody, writeStatement, hstart,
    on_executeAll_write rfl (hv.evaluate hheight _) (plainText_int _ hshort)]
  refine ⟨_, rfl, ?_⟩
  simp [Machine.output, String.join]

theorem DividesByZero.run (ha : e.DividesByZero a) (hshort : a.natAbs < Numeral.writeBound)
    (hfuel : e.height + 3 ≤ fuel) (level : Int) :
    ∃ m, (runProgram fuel (.program [e.writeStatement])).on { level := level }
        = (.error (.fault (.divisionByZero "/" (toString a) (.int a))), m) ∧ m.output = "" := by
  obtain ⟨fuel, rfl, hheight⟩ := exists_fuel_write hfuel
  obtain ⟨traced, tracing, runs, hstart⟩ := exists_on_startRun { level := level }
  have hbody : programBody (.program [e.writeStatement]) = .ok [e.writeStatement] := rfl
  rw [on_runProgram _ hbody, writeStatement, hstart,
    on_executeAll_write_error (ha.evaluate hshort hheight _)]
  exact ⟨_, rfl, rfl⟩

end Calculation

/-- The program `write(e);`, for integer arithmetic `e` in any layout of its tokens, prints the
value of `e` in decimal, if it has one. Otherwise some division by zero is met, which is the error
that the program ends with, and nothing is printed. Only the integer that is shown must not have
more digits than are written. -/
theorem write_calculation (e : Calculation) {cs : List Char} (hcs : Laid cs e.writeTokens)
    (hshort : ∀ n, e.Yields n ∨ e.DividesByZero n → n.natAbs < Numeral.writeBound) :
    ∃ program, parse (String.ofList cs) = .ok program ∧
      ∀ (level : Int) (fuel : Nat), e.height + 3 ≤ fuel →
        (∃ v m, (∀ w, e.Yields w ↔ w = v) ∧
          (runProgram fuel program).on { level := level } = (.ok (), m) ∧
          m.output = toString v ++ "\n") ∨
        (∃ a m, e.DividesByZero a ∧ (∀ w, ¬ e.Yields w) ∧
          (runProgram fuel program).on { level := level }
            = (.error (.fault (.divisionByZero "/" (toString a) (.int a))), m) ∧
          m.output = "") := by
  refine ⟨_, e.parse_writeTokens hcs, fun level fuel hfuel => ?_⟩
  rcases e.exists_yields with ⟨v, hv⟩ | ⟨a, ha⟩
  · obtain ⟨m, hrun, houtput⟩ := hv.run (hshort v (.inl hv)) hfuel level
    have hvalue : ∀ w, e.Yields w ↔ w = v := fun w =>
      ⟨fun hw => hw.unique hv, fun hw => hw ▸ hv⟩
    exact .inl ⟨v, m, hvalue, hrun, houtput⟩
  · obtain ⟨m, hrun, houtput⟩ := ha.run (hshort a (.inr ha)) hfuel level
    exact .inr ⟨a, m, ha, ha.not_yields, hrun, houtput⟩

/-- The numeral of one digit. -/
def IntegerNumeral.ofDigit (c : Char) (hc : Text.isDecimalDigit c) : IntegerNumeral where
  text := [c]
  isDigits := ⟨List.cons_ne_nil _ _, List.forall_mem_singleton.2 hc⟩
  short := Nat.le_trans (List.length_filterMap_le _ _) (by simp [Numeral.maxDigits])

/-- The calculation `(1-8)/2*3`, whose quotient is not exact. -/
def inexactQuotient : Calculation :=
  .operate .multiply
    (.operate .divide
      (.operate .subtract (.numeral (.ofDigit '1' (by decide)))
        (.numeral (.ofDigit '8' (by decide))))
      (.numeral (.ofDigit '2' (by decide))))
    (.numeral (.ofDigit '3' (by decide)))

theorem inexactQuotient_yields : inexactQuotient.Yields (-9) := by
  have hdifference : Arithmetic.subtract.Gives 1 8 (-7) := rfl
  have hquotient : Arithmetic.divide.Gives (-7) 2 (-3) := ⟨-1, by decide⟩
  have hproduct : Arithmetic.multiply.Gives (-3) 3 (-9) := rfl
  exact .operate (.operate (.operate (.numeral _) (.numeral _) hdifference) (.numeral _) hquotient)
    (.numeral _) hproduct

/-- The text `write((1-8)/2*3);` prints `-9`. -/
theorem write_calculation_inexactQuotient :
    Laid "write((1-8)/2*3);".toList inexactQuotient.writeTokens ∧
      (∀ n, inexactQuotient.Yields n ∨ inexactQuotient.DividesByZero n →
        n.natAbs < Numeral.writeBound) ∧
      ∃ program, parse "write((1-8)/2*3);" = .ok program ∧
        ∃ m, (runProgram 7 program).on { level := 0 } = (.ok (), m) ∧ m.output = "-9\n" := by
  have hlaid : Laid "write((1-8)/2*3);".toList inexactQuotient.writeTokens :=
    laid_flatMap inexactQuotient.writeTokens
  have hshort : ∀ n, inexactQuotient.Yields n ∨ inexactQuotient.DividesByZero n →
      n.natAbs < Numeral.writeBound := by
    rintro n (hn | hn)
    · cases hn.unique inexactQuotient_yields
      exact Numeral.lt_writeBound (by decide : 1 ≤ Numeral.maxDigits) (by decide)
    · exact absurd inexactQuotient_yields (hn.not_yields _)
  obtain ⟨program, hparse, hrun⟩ := write_calculation inexactQuotient hlaid hshort
  refine ⟨hlaid, hshort, program, hparse, ?_⟩
  rcases hrun 0 7 (by decide) with ⟨v, m, hv, hok, houtput⟩ | ⟨a, m, -, hnone, -⟩
  · cases (hv _).1 inexactQuotient_yields
    exact ⟨m, hok, houtput⟩
  · exact absurd inexactQuotient_yields (hnone _)

end MiniAlgol
