import MiniAlgol.Proofs.Source.Reading
import Mathlib

/-!
# Sources one after the other

Two accepted sources with a line break between them are accepted, and the statements are those of
the first and then those of the second (`parse_concat`).

Three things are shown. What was cut into tokens is cut the same way when a line break and more
text follow (`readTokens_append`). A parser that has finished some statements already takes the
same tokens as one that has not, and keeps those statements before all others (`feed_behind`). And
where a program may end, the next token is looked for among the terminals that may start a program,
and `end` and `else` beside them (`readTokens_of_finish`); so only a source that starts with a
variable of one of these two names is read differently there.
-/

namespace MiniAlgol

/-! ## A blank after a text -/

namespace Terminal

variable {c : Char} {cs more text : List Char} {n : Nat}

theorem takeWhile_append_stop {p : Char → Bool} (hc : p c = false) :
    (cs ++ c :: more).takeWhile p = cs.takeWhile p := by
  induction cs with
  | nil => simp [hc]
  | cons d cs ih => rw [List.cons_append, List.takeWhile_cons, List.takeWhile_cons, ih]

theorem fixedWidth_append_stop (hc : c ∉ text) :
    fixedWidth text (cs ++ c :: more) = fixedWidth text cs := by
  cases hpre : text.isPrefixOf cs with
  | true =>
    have hlonger : text.isPrefixOf (cs ++ c :: more) :=
      List.isPrefixOf_iff_prefix.2 ((List.isPrefixOf_iff_prefix.1 hpre).trans
        (List.prefix_append cs _))
    rw [fixedWidth, fixedWidth, if_pos hpre, if_pos hlonger]
  | false =>
    have hnot : fixedWidth text cs = none := by rw [fixedWidth, if_neg (by simp [hpre])]
    rw [hnot]
    exact fixedWidth_across (fun d hd => by cases hd; exact hc) hpre

theorem firstFixedWidth_append_stop {texts : List (List Char)} (hc : ∀ text ∈ texts, c ∉ text) :
    firstFixedWidth texts (cs ++ c :: more) = firstFixedWidth texts cs := by
  induction texts with
  | nil => rfl
  | cons text texts ih =>
    rw [List.forall_mem_cons] at hc
    simp only [firstFixedWidth, List.findSome?_cons, fixedWidth_append_stop hc.1] at ih ⊢
    rw [ih hc.2]

theorem digitsWidth_append_stop (hc : Text.isDecimalDigit c = false) :
    digitsWidth (cs ++ c :: more) = digitsWidth cs := by
  rw [digitsWidth, digitsWidth, takeWhile_append_stop hc]

theorem realWidth_append_stop (hc : Text.isDecimalDigit c = false) (hpoint : c ≠ '.') :
    realWidth (cs ++ c :: more) = realWidth cs := by
  rw [realWidth, realWidth, digitsWidth_append_stop hc]
  cases hwhole : digitsWidth cs with
  | none => rfl
  | some whole =>
    have hle : whole ≤ cs.length := by
      rw [(digitsWidth_eq hwhole).1]
      exact (List.takeWhile_prefix _).length_le
    simp only [List.drop_append_of_le_length hle]
    cases cs.drop whole with
    | nil => simp [hpoint]
    | cons d rest =>
      by_cases hd : d = '.'
      · subst hd
        simp only [List.cons_append, digitsWidth_append_stop hc]
      · simp [hd]

/-- A quoted text that is closed ends there. -/
theorem width_append_string (h : stringLit.width cs = some n) :
    stringLit.width (cs ++ more) = some n := by
  have htakes := takes_of_width h
  have hends : ∀ rest, stringLit.EndsBefore rest := fun _ _ _ => rfl
  have hself := width_of_takes htakes (hends (cs.drop n))
  have hlonger := width_of_takes htakes (hends (cs.drop n ++ more))
  rw [List.take_append_drop, h] at hself
  rwa [← List.append_assoc, List.take_append_drop, ← hself] at hlonger

theorem fixedWidth_le (h : fixedWidth text cs = some n) : n ≤ cs.length := by
  unfold fixedWidth at h
  split at h
  · next hpre =>
    cases h
    exact (List.isPrefixOf_iff_prefix.1 hpre).length_le
  · cases h

theorem firstFixedWidth_le {texts : List (List Char)} (h : firstFixedWidth texts cs = some n) :
    n ≤ cs.length := by
  obtain ⟨text, -, hit⟩ := List.exists_of_findSome?_eq_some h
  exact fixedWidth_le hit

theorem digitsWidth_le (h : digitsWidth cs = some n) : n ≤ cs.length := by
  rw [(digitsWidth_eq h).1]
  exact (List.takeWhile_prefix _).length_le

/-- A terminal takes no more than there is. -/
theorem width_le {t : Terminal} (h : t.width cs = some n) : n ≤ cs.length := by
  cases t with
  | ident =>
    cases cs with
    | nil => cases h
    | cons d cs =>
      simp only [width, nameWidth] at h
      split at h
      · cases h
        exact Nat.succ_le_succ (List.takeWhile_prefix _).length_le
      · cases h
  | realLit =>
    simp only [width, realWidth] at h
    split at h
    · cases h
    · next whole hwhole =>
      split at h
      · next rest hdrop =>
        obtain ⟨fraction, hfraction, rfl⟩ := Option.map_eq_some_iff.1 h
        have hrest := digitsWidth_le hfraction
        have hlength := congrArg List.length hdrop
        simp only [List.length_drop, List.length_cons] at hlength
        omega
      · cases h
  | intLit => exact digitsWidth_le h
  | stringLit =>
    simp only [width, stringWidth] at h
    split at h
    · split at h
      · cases h
        simp only [List.length_cons]
        omega
      · cases h
    · cases h
  | compareOp | addOp | mulOp => exact firstFixedWidth_le h
  | _ => exact fixedWidth_le h

theorem width_keyword_eq_none {k : Keyword} (h : ident.width cs = none) :
    (keyword k).width cs = none := by
  cases hwidth : (keyword k).width cs with
  | none => rfl
  | some n =>
    obtain ⟨c, more, htext, hc, -⟩ := k.isName_text
    have htake : cs.take n = k.text.toList := take_of_fixedWidth hwidth
    cases cs with
    | nil => simp [htext] at htake
    | cons d cs =>
      cases n with
      | zero => simp [htext] at htake
      | succ n =>
        rw [List.take_succ_cons, htext] at htake
        cases htake
        simp [width, nameWidth, hc] at h

/-- The blanks that may stand between tokens. -/
def spaces : List Char :=
  [' ', '\t', '\x0c', '\r', '\n']

/-- What is checked of each blank holds of a character that is one. -/
theorem of_isSpace {P : Char → Prop} [DecidablePred P] (h : spaces.all fun d => P d)
    (hc : Token.isSpace c) : P c := by
  have hspace : c ∈ spaces := by
    simpa [Token.isSpace, spaces, or_assoc] using hc
  exact of_decide_eq_true (List.all_eq_true.1 h c hspace)

/-- A blank after a text ends what any terminal takes of it, but for a quotation mark that is not
closed before the blank. -/
theorem width_append_space {t : Terminal} (hc : Token.isSpace c)
    (hquote : t = .stringLit → cs.head? = some '"' → (t.width cs).isSome) :
    t.width (cs ++ c :: more) = t.width cs := by
  have hdigit := of_isSpace (P := (Text.isDecimalDigit · = false)) (by decide) hc
  have hname := of_isSpace (P := (isNameChar · = false)) (by decide) hc
  cases t with
  | ident =>
    cases cs with
    | nil =>
      have hstart := of_isSpace (P := (isNameStart · = false)) (by decide) hc
      simp [width, nameWidth, hstart]
    | cons d cs =>
      rw [List.cons_append, width, width, nameWidth, nameWidth, takeWhile_append_stop hname]
  | realLit =>
    exact realWidth_append_stop hdigit (of_isSpace (P := (· ≠ '.')) (by decide) hc)
  | intLit => exact digitsWidth_append_stop hdigit
  | stringLit =>
    cases hwidth : stringLit.width cs with
    | some n => exact width_append_string hwidth
    | none =>
      rw [hwidth] at hquote
      cases cs with
      | nil =>
        have hopens := of_isSpace (P := (stringLit.opens · = false)) (by decide) hc
        exact width_eq_none hopens
      | cons d cs =>
        refine width_eq_none (beq_eq_false_iff_ne.2 ?_)
        rintro rfl
        cases hquote rfl rfl
  | compareOp | addOp | mulOp =>
    exact firstFixedWidth_append_stop
      (of_isSpace (P := fun d => ∀ text ∈ _, d ∉ text) (by decide) hc)
  | keyword k =>
    refine fixedWidth_append_stop fun hmem => ?_
    rw [Keyword.isNameChar_of_mem hmem] at hname
    cases hname
  | _ => exact fixedWidth_append_stop (of_isSpace (P := (· ∉ _)) (by decide) hc)

end Terminal

/-! ## The tokens of a text that goes on -/

namespace Token

variable {accepts accepts' : Terminal → Bool} {c : Char} {cs more : List Char} {t : Terminal}
  {n : Nat} {token : Token}

/-- The terminal that is found takes the text, and no other terminal does so before. -/
theorem exists_of_matchWidth (h : matchWidth accepts cs = some (t, n)) :
    accepts t ∧ t.width cs = some n := by
  obtain ⟨u, -, hit⟩ := List.exists_of_findSome?_eq_some h
  split at hit
  · next hu =>
    obtain ⟨m, hwidth, heq⟩ := Option.map_eq_some_iff.1 hit
    cases heq
    exact ⟨hu, hwidth⟩
  · cases hit

/-- What is found does not depend on what follows a blank. -/
theorem matchWidth_append_space (hc : isSpace c) (h : matchWidth accepts cs = some (t, n)) :
    matchWidth accepts (cs ++ c :: more) = some (t, n) := by
  have hquote : Terminal.stringLit.width cs = none → cs.head? ≠ some '"' := by
    intro hnone hhead
    obtain ⟨rest, rfl⟩ := List.head?_eq_some_iff.1 hhead
    -- only a quoted text starts with a quotation mark
    obtain ⟨-, hwidth⟩ := exists_of_matchWidth h
    by_cases ht : t = .stringLit
    · rw [ht, hnone] at hwidth
      cases hwidth
    · have hopens : t.opens '"' = false := by
        cases t with
        | keyword k => cases k <;> rfl
        | stringLit => exact absurd rfl ht
        | _ => rfl
      rw [Terminal.width_eq_none hopens] at hwidth
      cases hwidth
  rw [← h, matchWidth, matchWidth]
  congr 1
  funext u
  rw [Terminal.width_append_space hc]
  rintro rfl hhead
  by_contra hnone
  exact hquote (by simpa using hnone) hhead

theorem front_append_space (hc : isSpace c) (h : front accepts cs = some token) :
    front accepts (cs ++ c :: more) = some token := by
  obtain ⟨⟨t, n⟩, hmatch, rfl⟩ := Option.map_eq_some_iff.1 h
  have hle := Terminal.width_le (exists_of_matchWidth hmatch).2
  rw [front, matchWidth_append_space hc hmatch]
  simp only [Option.map_some, List.take_append_of_le_length hle]

/-- Inside or outside of a comment, a line break after a text ends what is skipped of it. -/
theorem skipFrom_append_line (comment : Bool) (cs more : List Char) :
    skipFrom comment (cs ++ '\n' :: more) =
      if skipFrom comment cs = [] then skip more else skipFrom comment cs ++ '\n' :: more := by
  fun_induction skipFrom comment cs with
  | case1 comment => cases comment <;> rfl
  | case2 c cs ih => rw [List.cons_append, skipFrom, ih]
  | case3 c cs hc ih => rw [List.cons_append, skipFrom, if_pos hc, ih]
  | case4 c cs hc hcomment ih =>
    have hlonger : (c == '/' && (cs ++ '\n' :: more).head? == some '/') = true := by
      cases cs with
      | nil => simp at hcomment
      | cons d cs => exact hcomment
    have hstep : skipFrom false (c :: (cs ++ '\n' :: more)) =
        skipFrom true (cs ++ '\n' :: more) := by
      rw [skipFrom, if_neg hc, if_pos hlonger]
    rw [List.cons_append, hstep, ih]
  | case5 c cs hc hcomment =>
    -- what follows a slash at the end of the text is no slash
    have hnot : ¬ (c == '/' && (cs ++ '\n' :: more).head? == some '/') = true := by
      cases cs with
      | nil => simp
      | cons d cs => simpa using hcomment
    rw [List.cons_append, skipFrom, if_neg hc, if_neg hnot]
    simp

/-- Where names are accepted, it does not matter to the width which reserved words are. -/
theorem matchWidth_congr (hident : accepts .ident)
    (haccepts : ∀ t, (∀ k, t ≠ .keyword k) → accepts' t = accepts t) :
    matchWidth accepts' cs = matchWidth accepts cs := by
  obtain ⟨signs, hall, hsigns, hmem⟩ : ∃ signs, Terminal.all = signs ++ Keyword.all.map .keyword ∧
      (∀ t ∈ signs, ∀ k ∈ Keyword.all, t ≠ .keyword k) ∧ Terminal.ident ∈ signs :=
    ⟨Terminal.all.take 16, rfl, by decide, by decide⟩
  have hsame : signs.filterMap (fun t => if accepts' t then (t.width cs).map (t, ·) else none)
      = signs.filterMap (fun t => if accepts t then (t.width cs).map (t, ·) else none) :=
    List.filterMap_congr fun t ht => by rw [haccepts t fun k => hsigns t ht k k.mem_all]
  rw [matchWidth, matchWidth, hall, List.findSome?_append, List.findSome?_append,
    ← List.head?_filterMap (l := signs), hsame, List.head?_filterMap]
  cases hfirst : signs.findSome? fun t => if accepts t then (t.width cs).map (t, ·) else none with
  | some found => rfl
  | none =>
    -- a text that starts with no name starts with no reserved word
    have hname : Terminal.ident.width cs = none := by
      have := List.findSome?_eq_none_iff.1 hfirst _ hmem
      simpa [hident] using this
    have hnone : ∀ accepts : Terminal → Bool, (Keyword.all.map Terminal.keyword).findSome?
        (fun t => if accepts t then (t.width cs).map (t, ·) else none) = none := by
      intro accepts
      rw [List.findSome?_eq_none_iff]
      intro t ht
      obtain ⟨k, -, rfl⟩ := List.mem_map.1 ht
      rw [Terminal.width_keyword_eq_none hname]
      simp
    rw [hnone, hnone]

theorem eq_of_ofText? {k : Keyword} (h : Keyword.ofText? cs = some k) : cs = k.text.toList := by
  have hfound := List.find?_some h
  exact (beq_iff_eq.1 hfound).symm

/-- A token is found in the same way where other words are reserved, if it is none of them. -/
theorem front_congr (hident : accepts .ident)
    (haccepts : ∀ t, (∀ k, t ≠ .keyword k) → accepts' t = accepts t)
    (hfront : front accepts cs = some token)
    (htoken : ∀ k, accepts' (.keyword k) ≠ accepts (.keyword k) → token.text ≠ k.text.toList) :
    front accepts' cs = some token := by
  obtain ⟨⟨t, n⟩, hmatch, rfl⟩ := Option.map_eq_some_iff.1 hfront
  have hreserve : reserve accepts' t (cs.take n) = reserve accepts t (cs.take n) := by
    unfold reserve
    split
    · split
      · next k hk =>
        have hsame : accepts' (.keyword k) = accepts (.keyword k) := by
          by_contra hne
          exact htoken k hne (eq_of_ofText? hk)
        rw [hsame]
      · rfl
    · rfl
  rw [front, matchWidth_congr hident haccepts, hmatch]
  simp only [Option.map_some, hreserve]

end Token

namespace Source

/-! ## Reading on -/

variable {p q : Parser} {last last' : Option (List Char)} {cs more : List Char}

theorem readTokens_eq (p : Parser) (last : Option (List Char)) (cs : List Char) :
    readTokens p last cs =
      match Token.skip cs with
      | [] => .done p last
      | c :: rest =>
        match Token.front p.focus.accepts (c :: rest) with
        | some token =>
          match p.feed token with
          | some next => readTokens next (some (c :: rest)) (token.after (c :: rest))
          | none => .token token (c :: rest)
        | none =>
          match Token.front (fun _ => true) (c :: rest) with
          | some token => .token token (c :: rest)
          | none => .character c (c :: rest) := by
  rw [readTokens]
  split
  · next hnil => rw [hnil]
  · next hcons =>
    rw [hcons]
    simp only
    split
    · next hfront =>
      rewrite [hfront]
      rfl
    · next hfront =>
      rewrite [hfront]
      rfl

/-- Only what is left after blanks and comments is read. -/
theorem readTokens_congr (h : Token.skip cs = Token.skip more) :
    readTokens p last cs = readTokens p last more := by
  rw [readTokens_eq, readTokens_eq p last more, h]

/-- What was read to its end is read in the same way before a line break. -/
theorem readTokens_append (h : readTokens p last cs = .done q last') (more : List Char)
    (earlier : Option (List Char)) :
    ∃ later, readTokens p earlier (cs ++ '\n' :: more) = readTokens q later more := by
  fun_induction readTokens p last cs generalizing earlier with
  | case1 p last cs hskip =>
    cases h
    refine ⟨earlier, readTokens_congr ?_⟩
    rw [Token.skip, Token.skipFrom_append_line, ← Token.skip, if_pos hskip]
  | case2 p last cs c rest hskip token hfront next hfeed ih =>
    have hlonger : Token.skip (cs ++ '\n' :: more) = c :: rest ++ '\n' :: more := by
      rw [Token.skip, Token.skipFrom_append_line, ← Token.skip, hskip]
      rfl
    have hcut : Token.front p.focus.accepts (c :: rest ++ '\n' :: more) = some token :=
      Token.front_append_space rfl hfront
    have hafter : token.after (c :: rest ++ '\n' :: more)
        = token.after (c :: rest) ++ '\n' :: more := by
      conv_lhs => rw [← Token.text_append_after hfront, List.append_assoc]
      exact List.drop_left
    obtain ⟨later, hrest⟩ := ih h (some (c :: rest ++ '\n' :: more))
    refine ⟨later, ?_⟩
    rw [readTokens_eq, hlonger, List.cons_append]
    rw [List.cons_append] at hcut hafter hrest
    simp only [hcut, hfeed, hafter]
    exact hrest
  | case3 | case4 | case5 => cases h

/-! ## Behind finished statements -/

/-- The construct with some statements finished before its own, if it is the program. -/
def Frame.behind (before : List Node) : Frame → Frame
  | .program done => .program (done ++ before.reverse)
  | frame => frame

/-- The parser with some statements of the program finished before all others. -/
def Parser.behind (before : List Node) (p : Parser) : Parser :=
  { p with frames := p.frames.map (Frame.behind before) }

variable {before : List Node} {t : Token}

theorem complete_behind (before : List Node) (frames : List Frame) (s : Node) :
    Parser.complete (frames.map (Frame.behind before)) s
      = (Parser.complete frames s).map (Frame.behind before) := by
  fun_induction Parser.complete frames s with
  | case1 => rfl
  | case2 | case3 => rfl
  | case4 _ _ _ _ _ ih | case5 _ _ _ ih | case6 _ _ _ _ ih | case7 _ _ _ ih => exact ih

theorem finishStatement_behind (p : Parser) (s : Node) :
    (p.behind before).finishStatement s = (p.finishStatement s).behind before := by
  simp only [Parser.finishStatement, Parser.behind, complete_behind]

theorem feedOperand_behind (p : Parser) (h : Hole) (t : Token) :
    (p.behind before).feedOperand h t = (p.feedOperand h t).map (Parser.behind before) := by
  unfold Parser.feedOperand
  split
  · rfl
  · split <;> rfl

theorem feedUse_behind (p : Parser) (use : Use) (e : Node) (t : Terminal) :
    (p.behind before).feedUse use e t = (p.feedUse use e t).map (Parser.behind before) := by
  unfold Parser.feedUse
  split <;> first | rfl | exact congrArg some (finishStatement_behind p _)

theorem feedClose_behind (p : Parser) (h : Hole) (e : Node) (t : Terminal) :
    (p.behind before).feedClose h e t = (p.feedClose h e t).map (Parser.behind before) := by
  unfold Parser.feedClose
  split
  · exact feedUse_behind p _ e t
  · simp only
    split <;> rfl

theorem feedAfterOperand_behind (p : Parser) (x : Node) (h : Hole) (t : Token) :
    (p.behind before).feedAfterOperand x h t
      = (p.feedAfterOperand x h t).map (Parser.behind before) := by
  unfold Parser.feedAfterOperand
  split
  · rfl
  · exact feedClose_behind p h _ _

theorem feedStatement_behind (p : Parser) (t : Token) :
    (p.behind before).feedStatement t = (p.feedStatement t).map (Parser.behind before) := by
  unfold Parser.feedStatement
  split
  · rfl
  · split <;> try rfl
    · -- the `end` of a block
      simp only [Parser.behind]
      cases hframes : p.frames with
      | nil => rfl
      | cons frame frames => cases frame <;> rfl
    · exact feedOperand_behind p _ t
  · exact feedOperand_behind p _ t

theorem feedExtent_behind (p : Parser) (header : ArrayHeader) (t : Token)
    (next : ArrayHeader → Focus) :
    (p.behind before).feedExtent header t next
      = (p.feedExtent header t next).map (Parser.behind before) := by
  unfold Parser.feedExtent
  split
  · simp only
    split <;> rfl
  · rfl

theorem feedEnded_behind (p : Parser) (block : Node) (t : Token) :
    (p.behind before).feedEnded block t = (p.feedEnded block t).map (Parser.behind before) := by
  unfold Parser.feedEnded
  split
  · simp only [Parser.behind]
    cases hframes : p.frames with
    | nil => rfl
    | cons frame frames => cases frame <;> rfl
  · rw [finishStatement_behind, feedStatement_behind]

theorem expect_behind {t expected : Terminal} {next next' : Parser}
    (hnext : next' = next.behind before) :
    Parser.expect t expected next' =
      (Parser.expect t expected next).map (Parser.behind before) := by
  unfold Parser.expect
  split
  · exact congrArg some hnext
  · rfl

/-- What is finished already does not matter to the tokens that a parser takes. -/
theorem feed_behind (p : Parser) (t : Token) :
    (p.behind before).feed t = (p.feed t).map (Parser.behind before) := by
  obtain ⟨focus, frames, longExtent⟩ := p
  cases focus with
  | opening | statements => exact feedStatement_behind _ t
  | ended block => exact feedEnded_behind _ block t
  | varType | arrayStart | arrayName | arrayType | extentLast | arrayEquals | routineStart
  | routineName | paramNext | blockOpen =>
    simp only [Parser.feed, Parser.behind]
    exact expect_behind rfl
  | extentFirst header | extentSecond header => exact feedExtent_behind _ header t _
  | arrayFilled header init =>
    simp only [Parser.feed, Parser.behind]
    exact expect_behind (finishStatement_behind ⟨_, frames, longExtent⟩ _)
  | operand h => exact feedOperand_behind _ h t
  | afterOperand x h => exact feedAfterOperand_behind _ x h t
  | varName | arrayExtents =>
    simp only [Parser.feed, Parser.behind]
    split <;> first | rfl | exact congrArg some (finishStatement_behind ⟨_, frames, longExtent⟩ _)
  | arrayColon =>
    simp only [Parser.feed, Parser.behind]
    split
    · rw [Option.map_map]
      rfl
    · rfl
  | extentMore | paramsOpen | paramRead | elseOpen =>
    simp only [Parser.feed, Parser.behind]
    split <;> rfl
  | arrayOpen | argumentsOpen =>
    simp only [Parser.feed, Parser.behind]
    split <;> first | rfl | exact feedOperand_behind ⟨_, frames, longExtent⟩ _ t
  | statementName | statementElement | operandName =>
    simp only [Parser.feed, Parser.behind]
    split <;> first | rfl | exact feedAfterOperand_behind ⟨_, frames, longExtent⟩ _ _ t

theorem readTokens_behind (h : readTokens p last cs = .done q last') :
    readTokens (p.behind before) last cs = .done (q.behind before) last' := by
  fun_induction readTokens p last cs with
  | case1 p last cs hskip =>
    cases h
    exact readTokens_done hskip
  | case2 p last cs c rest hskip token hfront next hfeed ih =>
    have hcut : Token.front (p.behind before).focus.accepts (c :: rest) = some token := hfront
    rw [readTokens_eq, hskip]
    simp only [hcut, feed_behind, hfeed, Option.map_some]
    exact ih h
  | case3 | case4 | case5 => cases h

/-! ## Where a program may end -/

theorem feedStatement_focusOn (p : Parser) (focus : Focus) (t : Token) :
    (p.focusOn focus).feedStatement t = p.feedStatement t := by
  unfold Parser.feedStatement
  rfl

variable {body : List Node}

/-- Where a program may end, a statement may start, and `end` and `else` may stand only there. -/
theorem accepts_of_finish (h : p.finish = some body) {t : Terminal} (hend : t ≠ .keyword .end)
    (helse : t ≠ .keyword .else) : p.focus.accepts t = Parser.initial.focus.accepts t := by
  unfold Parser.finish at h
  have hend : (t == .keyword .end) = false := beq_eq_false_iff_ne.2 hend
  have helse : (t == .keyword .else) = false := beq_eq_false_iff_ne.2 helse
  cases hfocus : p.focus with
  | opening => rfl
  | statements | ended => simp [Focus.accepts, Parser.initial, hend, helse]
  | _ =>
    rw [hfocus] at h
    cases h

theorem frames_of_finish {frames : List Frame}
    (h : Parser.finish ⟨.statements, frames, none⟩ = some body) :
    frames = [.program body.reverse] := by
  simp only [Parser.finish] at h
  split at h
  · cases h
    rw [List.reverse_reverse]
  · cases h

/-- Where a program may end, a statement is taken like the first one of a program. -/
theorem feed_of_finish (h : p.finish = some body) (hlong : p.longExtent = none)
    (helse : t.terminal ≠ .keyword .else) :
    p.feed t = (Parser.initial.feed t).map (Parser.behind body) := by
  have hinitial : (Parser.initial.feed t).map (Parser.behind body)
      = Parser.feedStatement ⟨.statements, [.program body.reverse], none⟩ t := by
    rw [← feed_behind]
    exact feedStatement_focusOn ⟨.statements, [.program body.reverse], none⟩ .opening t
  obtain ⟨focus, frames, longExtent⟩ := p
  cases hlong
  rw [hinitial]
  cases focus with
  | opening | statements =>
    cases frames_of_finish h
    exact feedStatement_focusOn ⟨.statements, [.program body.reverse], none⟩ _ t
  | ended block =>
    have hdone : Parser.complete frames block = [.program body.reverse] := frames_of_finish h
    show Parser.feedEnded _ block t = _
    unfold Parser.feedEnded
    split
    · next ht => exact absurd ht helse
    · rw [Parser.finishStatement, hdone]
  | _ => cases h

theorem finish_behind (p : Parser) : (p.behind body).finish = p.finish.map (body ++ ·) := by
  have hstatements : ∀ frames : List Frame,
      Parser.finish ⟨.statements, frames.map (Frame.behind body), none⟩
        = (Parser.finish ⟨.statements, frames, none⟩).map (body ++ ·) := by
    intro frames
    cases frames with
    | nil => rfl
    | cons frame frames =>
      cases frames with
      | nil => cases frame <;> simp [Parser.finish, Frame.behind]
      | cons inner frames => cases frame <;> rfl
  obtain ⟨focus, frames, longExtent⟩ := p
  cases focus with
  | opening | statements => exact hstatements frames
  | ended block =>
    have hdone := hstatements (Parser.complete frames block)
    rwa [← complete_behind] at hdone
  | _ => rfl

/-- A source is read after a program in the same way as it is read alone. -/
theorem readTokens_of_finish {p q : Parser} (h : p.finish = some body) (hlong : p.longExtent = none)
    (hread : readTokens Parser.initial last cs = .done q last')
    (hfirst : ∀ k ∈ [Keyword.end, .else], ∀ t,
      Token.front Parser.initial.focus.accepts (Token.skip cs) = some t → t.text ≠ k.text.toList)
    (earlier : Option (List Char)) :
    ∃ r later, readTokens p earlier cs = .done r later ∧ r.longExtent = q.longExtent ∧
      r.finish = q.finish.map (body ++ ·) := by
  rw [readTokens_eq] at hread
  cases hskip : Token.skip cs with
  | nil =>
    rw [hskip] at hread
    cases hread
    refine ⟨p, earlier, readTokens_done hskip, hlong, ?_⟩
    rw [h]
    exact congrArg some (List.append_nil body).symm
  | cons c rest =>
    rw [hskip] at hread hfirst
    simp only at hread
    split at hread
    · next token hfront =>
      split at hread
      · next next hfeed =>
        have haccepts : ∀ t, t ≠ .keyword .end → t ≠ .keyword .else →
            p.focus.accepts t = Parser.initial.focus.accepts t :=
          fun t hend helse => accepts_of_finish h hend helse
        have hcut : Token.front p.focus.accepts (c :: rest) = some token := by
          refine Token.front_congr rfl (fun t ht => haccepts t (ht _) (ht _)) hfront fun k hk => ?_
          refine hfirst k ?_ token hfront
          by_contra hother
          simp only [List.mem_cons, List.not_mem_nil, or_false, not_or] at hother
          exact hk (haccepts _ (by simp [hother.1]) (by simp [hother.2]))
        have helse : token.terminal ≠ .keyword .else := by
          intro ht
          have hstart := (Token.front_fits hfront).1
          rw [ht] at hstart
          cases hstart
        refine ⟨q.behind body, last', ?_, rfl, finish_behind q⟩
        rw [readTokens_eq, hskip]
        simp only [hcut, feed_of_finish h hlong helse, hfeed, Option.map_some]
        exact readTokens_behind hread
      · cases hread
    · split at hread <;> cases hread

/-! ## Two programs -/

/-- A source is accepted when it is read to its end and may end there. -/
theorem parse_eq_ok_iff {source : String} :
    parse source = .ok (.program body) ↔
      ∃ p last, readTokens Parser.initial none source.toList = .done p last ∧
        p.finish = some body ∧ p.longExtent = none := by
  unfold parse parseChars
  constructor
  · intro h
    split at h
    · cases h
    · cases h
    · next p last hdone =>
      split at h
      · cases h
      · cases h
      · next body hfinish hlong =>
        cases h
        exact ⟨p, last, hdone, hfinish, hlong⟩
  · rintro ⟨p, last, hdone, hfinish, hlong⟩
    rw [hdone]
    simp only [hfinish, hlong]

/-- The first token of a source. -/
def firstToken? (source : String) : Option Token :=
  Token.front Parser.initial.focus.accepts (Token.skip source.toList)

/-- Two programs with a line break between them are the program of the statements of both, unless
the second one starts with a variable `end` or `else`, which would be read as a reserved word. -/
theorem parse_concat {source₁ source₂ : String} {body₁ body₂ : List Node}
    (h₁ : parse source₁ = .ok (.program body₁)) (h₂ : parse source₂ = .ok (.program body₂))
    (hfirst : ∀ k ∈ [Keyword.end, .else], firstToken? source₂ ≠ some ⟨.ident, k.text.toList⟩) :
    parse (source₁ ++ "\n" ++ source₂) = .ok (.program (body₁ ++ body₂)) := by
  obtain ⟨p, last, hread₁, hfinish₁, hlong₁⟩ := parse_eq_ok_iff.1 h₁
  obtain ⟨q, last', hread₂, hfinish₂, hlong₂⟩ := parse_eq_ok_iff.1 h₂
  have hwords : ∀ k ∈ [Keyword.end, .else], ∀ t,
      firstToken? source₂ = some t → t.text ≠ k.text.toList := by
    rintro k hk ⟨t, text⟩ ht rfl
    obtain ⟨haccepts, hfits⟩ := Token.front_fits ht
    obtain ⟨more, hmore⟩ : ∃ more, k.text.toList = 'e' :: more := by
      rcases List.mem_pair.1 hk with rfl | rfl <;> exact ⟨_, rfl⟩
    have hopens : t.opens 'e' := Terminal.opens_of_takes (hmore ▸ hfits)
    cases t with
    | ident => exact hfirst k hk ht
    | keyword j =>
      -- neither word is reserved at the start of a program
      have hjk : some j = some k := by
        rw [← j.ofText?_text, ← k.ofText?_text]
        exact congrArg _ hfits.symm
      cases hjk
      rcases List.mem_pair.1 hk with rfl | rfl <;> cases haccepts
    | _ => exact absurd hopens (by decide)
  obtain ⟨later, hboth⟩ := readTokens_append hread₁ source₂.toList none
  obtain ⟨r, last'', hread, hlong, hfinish⟩ :=
    readTokens_of_finish hfinish₁ hlong₁ hread₂ hwords later
  refine parse_eq_ok_iff.2 ⟨r, last'', ?_, ?_, hlong.trans hlong₂⟩
  · rw [String.toList_append, String.toList_append, List.append_assoc]
    exact hboth.trans hread
  · rw [hfinish, hfinish₂]
    rfl

/-- After a block that an `else` could follow, a name that is reserved elsewhere. -/
theorem parse_concat_afterBlock :
    let source₁ := "if true then begin end // else"
    let source₂ := "then := 1;"
    let body₁ : List Node := [.ifStmt (.literal "true" "bool") (.block []) .missing]
    let body₂ : List Node := [.assign "then" (.literal "1" "int")]
    parse source₁ = .ok (.program body₁) ∧ parse source₂ = .ok (.program body₂) ∧
      (∀ k ∈ [Keyword.end, .else], firstToken? source₂ ≠ some ⟨.ident, k.text.toList⟩) ∧
      parse (source₁ ++ "\n" ++ source₂) = .ok (.program (body₁ ++ body₂)) := by
  intro source₁ source₂ body₁ body₂
  have h₁ : parse source₁ = .ok (.program body₁) := by cbv
  have h₂ : parse source₂ = .ok (.program body₂) := by cbv
  have hfirst : ∀ k ∈ [Keyword.end, .else], firstToken? source₂ ≠ some ⟨.ident, k.text.toList⟩ := by
    decide
  exact ⟨h₁, h₂, hfirst, parse_concat h₁ h₂ hfirst⟩

end Source

end MiniAlgol
