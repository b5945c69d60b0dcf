import MiniAlgol.Proofs.Source.Completion
import MiniAlgol.Proofs.Source.Layout
import MiniAlgol.Proofs.Source.Soundness

/-!
# Where a syntax error is reported

What a syntax error reports stands at the place it names, and the text before it can still be
extended to an accepted source (`located_of_parse`). That text has been read to its end by then
(`exists_before`), which leaves the parser in a state that can be completed. Array extents are the
exception: one with too many digits is refused only when the rest of the source has been found
right. A text with such an extent can be extended to a source that has nothing else wrong with it,
but to no accepted one (`longExtent_of_append`).
-/

namespace MiniAlgol

namespace Source

variable {p q r : Parser} {t : Token} {ts : List Token} {cs before rest : List Char} {c : Char}
  {n : Nat} {last last' : Option (List Char)}

/-! ## What is read before an error -/

/-- The text from where reading stopped, if that is not its end. -/
def Halt.rest? : Halt → Option (List Char)
  | .done .. => none
  | .token _ rest | .character _ rest => some rest

/-- A text goes on like what it is the start of. -/
theorem resumes_prefix (before rest : List Char) : Resumes (before ++ rest) before := by
  intro c hc
  obtain ⟨more, rfl⟩ := List.head?_eq_some_iff.1 hc
  exact .inr rfl

/-- What a token comes behind is a gap. -/
theorem exists_gap_of_skip (hskip : Token.skip cs = c :: rest) :
    ∃ gap, cs = gap ++ c :: rest ∧ Token.Gap gap := by
  obtain ⟨gap, hcs, hgap | ⟨hend, -⟩⟩ := Token.exists_gap cs
  · rw [hskip] at hcs
    exact ⟨gap, hcs, hgap⟩
  · rw [hskip] at hend
    cases hend

/-- The text before the point where reading stops is read to its end. -/
theorem exists_before (h : (readTokens p last cs).rest? = some rest) :
    ∃ before q later, cs = before ++ rest ∧ readTokens p none before = .done q later := by
  fun_induction readTokens p last cs with
  | case1 => cases h
  | case2 p last cs d more hskip token hfront next hfeed ih =>
    obtain ⟨before, q, later, hafter, hread⟩ := ih h
    obtain ⟨gap, hcs, -⟩ := exists_gap_of_skip hskip
    -- the token is cut off the text before the point like off the whole text
    have htext := Token.text_append_after hfront
    rw [hafter] at htext
    rw [← htext] at hcs hskip hfront
    rw [hcs] at hskip
    have hfits := (Token.front_fits hfront).2
    have hresumes := resumes_prefix before rest
    have hskip := Token.skipFrom_resumes (Terminal.takes_ne_nil hfits) hskip hresumes
    have hfront := Token.front_resumes hfront hresumes (head_ne_point hread)
    obtain ⟨later, hread⟩ := readTokens_earlier hread (some (token.text ++ before))
    refine ⟨gap ++ (token.text ++ before), q, later, ?_, ?_⟩
    · rw [hcs, List.append_assoc, List.append_assoc]
    · rw [readTokens_next hfits hskip hfront hfeed, hread]
  | case3 p last cs d more hskip | case4 p last cs d more hskip | case5 p last cs d more hskip =>
    cases h
    obtain ⟨gap, hcs, hgap⟩ := exists_gap_of_skip hskip
    have hnil := Token.skip_gap hgap []
    rw [List.append_nil] at hnil
    exact ⟨gap, p, none, hcs, readTokens_done hnil⟩

/-- A token that is reported stands at the point where reading stops. -/
theorem exists_after_token (h : readTokens p last cs = .token t rest) :
    ∃ after, rest = t.text ++ after := by
  fun_induction readTokens p last cs with
  | case1 | case5 => cases h
  | case2 p last cs d more hskip token hfront next hfeed ih => exact ih h
  | case3 p last cs d more hskip token hfront | case4 p last cs d more hskip _ token hfront =>
    cases h
    exact ⟨_, (Token.text_append_after hfront).symm⟩

/-- So does a character that is reported. -/
theorem exists_after_character (h : readTokens p last cs = .character c rest) :
    ∃ after, rest = c :: after := by
  fun_induction readTokens p last cs with
  | case1 | case3 | case4 => cases h
  | case2 p last cs d more hskip token hfront next hfeed ih => exact ih h
  | case5 p last cs d more =>
    cases h
    exact ⟨more, rfl⟩

theorem ofRest_append (before rest : List Char) :
    Place.ofRest (before ++ rest) rest = Place.after before := by
  rw [Place.ofRest, List.length_append, Nat.add_sub_cancel_right, List.take_left]

/-! ## Extents that are too long -/

theorem length_digits {text : List Char} (h : ∀ c ∈ text, Text.isDecimalDigit c) :
    (text.filterMap Text.decimalDigit?).length = text.length := by
  induction text with
  | nil => rfl
  | cons c text ih =>
    rw [List.forall_mem_cons] at h
    obtain ⟨d, hd⟩ := Option.isSome_iff_exists.1 h.1
    rw [List.filterMap_cons_some hd, List.length_cons, List.length_cons, ih h.2]

/-- The parser is before an extent. -/
def Focus.beforeExtent : Focus → Prop
  | .extentFirst _ | .extentSecond _ => True
  | _ => False

theorem feed_beforeExtent (hp : p.focus.beforeExtent) (t : Token) :
    ∃ header next, p.feed t = p.feedExtent header t next := by
  unfold Parser.feed
  cases hfocus : p.focus with
  | extentFirst header => exact ⟨header, .extentMore, rfl⟩
  | extentSecond header => exact ⟨header, .extentLast, rfl⟩
  | _ =>
    rw [hfocus] at hp
    cases hp

theorem feedExtent_noted {header : ArrayHeader} {next : ArrayHeader → Focus}
    (hfeed : p.feedExtent header t next = some q) (hp : p.longExtent = none)
    (hq : q.longExtent = some n) :
    t.terminal = .intLit ∧ Numeral.maxDigits < (digitsOf t).length ∧ (digitsOf t).length = n := by
  unfold Parser.feedExtent at hfeed
  split at hfeed
  · next hterminal =>
    simp only at hfeed
    split at hfeed
    · next hlong =>
      cases hfeed
      rw [hp] at hq
      exact ⟨hterminal, hlong, Option.some.inj hq⟩
    · cases hfeed
      rw [Parser.focusOn, hp] at hq
      cases hq
  · cases hfeed

theorem longExtent_feed (hfeed : p.feed t = some q) (hp : ¬ p.focus.beforeExtent) :
    q.longExtent = p.longExtent := by
  grind [Parser.feed, Focus.beforeExtent, longExtent_feedStatement, longExtent_feedEnded,
    longExtent_feedOperand, longExtent_feedAfterOperand, Parser.finishStatement, Parser.openTo,
    Parser.enter, Parser.focusOn, Parser.expect, Option.map_eq_some_iff]

/-- Only an extent is noted. -/
theorem feed_noted (hfeed : p.feed t = some q) (hp : p.longExtent = none)
    (hq : q.longExtent = some n) :
    p.focus.beforeExtent ∧ t.terminal = .intLit ∧ Numeral.maxDigits < (digitsOf t).length ∧
      (digitsOf t).length = n := by
  have hfocus : p.focus.beforeExtent := by
    by_contra hfocus
    rw [longExtent_feed hfeed hfocus, hp] at hq
    cases hq
  obtain ⟨header, next, hextent⟩ := feed_beforeExtent hfocus t
  exact ⟨hfocus, feedExtent_noted (hextent ▸ hfeed) hp hq⟩

/-- What is noted stays noted. -/
theorem noted_feed (hfeed : p.feed t = some q) (hp : p.longExtent = some n) :
    q.longExtent = some n := by
  by_cases hfocus : p.focus.beforeExtent
  · obtain ⟨header, next, hextent⟩ := feed_beforeExtent hfocus t
    rw [hextent, Parser.feedExtent, hp] at hfeed
    split at hfeed
    · simp only at hfeed
      split at hfeed <;> cases hfeed
      · rfl
      · exact hp
    · cases hfeed
  · exact (longExtent_feed hfeed hfocus).trans hp

theorem noted_reads (hreads : Reads p ts q) (hp : p.longExtent = some n) :
    q.longExtent = some n := by
  induction hreads with
  | nil => exact hp
  | cons _ hfeed _ ih => exact ih (noted_feed hfeed hp)

/-- What is noted is the number of digits of an integer that was read. -/
theorem exists_of_noted (hreads : Reads p ts q) (hp : p.longExtent = none)
    (hq : q.longExtent = some n) :
    ∃ t ∈ ts, t.terminal = .intLit ∧ Numeral.maxDigits < (digitsOf t).length ∧
      (digitsOf t).length = n := by
  induction hreads with
  | nil =>
    rw [hp] at hq
    cases hq
  | @cons p r q t ts _ hfeed hrest ih =>
    cases hr : r.longExtent with
    | none =>
      obtain ⟨u, hu, hnoted⟩ := ih hr hq
      exact ⟨u, List.mem_cons_of_mem _ hu, hnoted⟩
    | some m =>
      rw [noted_reads hrest hr] at hq
      obtain rfl : m = n := Option.some.inj hq
      exact ⟨t, List.mem_cons_self, (feed_noted hfeed hp hr).2⟩

/-- The text of a token is part of the whole text. -/
theorem Spread.infix (hspread : Spread cs ts) (ht : t ∈ ts) : t.text <:+: cs := by
  induction hspread with
  | nil => cases ht
  | @cons gap rest u ts _ _ ih =>
    rcases List.mem_cons.1 ht with rfl | ht
    · exact ⟨gap, rest, List.append_assoc gap t.text rest⟩
    · have hrest : rest <:+: gap ++ (u.text ++ rest) :=
        ((List.suffix_append u.text rest).trans (List.suffix_append gap _)).isInfix
      exact (ih ht).trans hrest

/-- Where something is noted already, it is still noted at the end. -/
theorem longExtent_ne_none (h : readTokens p last cs = .done q last') (hp : p.longExtent = some n) :
    q.longExtent ≠ none := by
  obtain ⟨ts, hreads, -⟩ := exists_reads h
  rw [noted_reads hreads hp]
  nofun

/-- What is noted is the length of digits in the text. -/
theorem exists_digits (h : readTokens p last cs = .done q last') (hp : p.longExtent = none)
    (hq : q.longExtent = some n) :
    ∃ digits, Terminal.IsDigits digits ∧ digits <:+: cs ∧ Numeral.maxDigits < digits.length ∧
      digits.length = n := by
  obtain ⟨ts, hreads, hfits, hspread⟩ := exists_reads h
  obtain ⟨t, ht, hterminal, hlong, hn⟩ := exists_of_noted hreads hp hq
  have hdigits : Terminal.IsDigits t.text := by
    have hfit := hfits t ht
    rwa [Token.Fits, hterminal] at hfit
  rw [digitsOf, length_digits hdigits.2] at hlong hn
  exact ⟨t.text, hdigits, hspread.infix ht, hlong, hn⟩

theorem skip_digits {text : List Char} (htext : Terminal.IsDigits text) (rest : List Char) :
    Token.skip (text ++ rest) = text ++ rest := by
  obtain ⟨c, more, rfl⟩ := List.exists_cons_of_ne_nil htext.1
  have hc : Text.isDecimalDigit c := htext.2 c List.mem_cons_self
  have hspace : Token.isSpace c = false := Terminal.isSpace_eq_false (t := .intLit) hc
  have hslash : c ≠ '/' := by
    rintro rfl
    exact absurd hc (by decide)
  simp [Token.skip, Token.skipFrom, hspace, hslash]

/-- Before an extent, all the digits at the front are cut off. -/
theorem front_digits {text more : List Char} (hfocus : p.focus.beforeExtent)
    (htext : Terminal.IsDigits text) (h : Token.front p.focus.accepts (text ++ more) = some t) :
    t = ⟨.intLit, text ++ more.takeWhile Text.isDecimalDigit⟩ := by
  obtain ⟨⟨u, n⟩, hmatch, rfl⟩ := Option.map_eq_some_iff.1 h
  obtain ⟨haccepts, hwidth⟩ := Token.exists_of_matchWidth hmatch
  obtain rfl : u = .intLit := by
    cases hp : p.focus with
    | extentFirst | extentSecond =>
      rw [hp] at haccepts
      exact beq_iff_eq.1 haccepts
    | _ =>
      rw [hp] at hfocus
      cases hfocus
  have htake : (text ++ more).take n = text ++ more.takeWhile Text.isDecimalDigit := by
    rw [(Terminal.digitsWidth_eq hwidth).1, Terminal.take_length_takeWhile,
      List.takeWhile_append_of_pos htext.2]
  simp only [htake, Token.reserve]

theorem noted_extent {header : ArrayHeader} {next : ArrayHeader → Focus}
    (hfeed : p.feedExtent header t next = some q)
    (hlong : Numeral.maxDigits < (digitsOf t).length) : ∃ n, q.longExtent = some n := by
  unfold digitsOf at hlong
  unfold Parser.feedExtent at hfeed
  split at hfeed
  · simp only at hfeed
    rw [if_pos hlong] at hfeed
    cases hfeed
    cases hp : p.longExtent with
    | none => exact ⟨_, rfl⟩
    | some n => exact ⟨n, rfl⟩
  · cases hfeed

/-- Reading goes on behind a token. -/
theorem exists_next (h : readTokens p last cs = .done q last') (hskip : Token.skip cs = c :: rest) :
    ∃ t next, Token.front p.focus.accepts (c :: rest) = some t ∧ p.feed t = some next ∧
      ∃ after earlier, readTokens next earlier after = .done q last' := by
  rw [readTokens_eq, hskip] at h
  simp only at h
  split at h
  · next t hfront =>
    split at h
    · next next hfeed => exact ⟨t, next, hfront, hfeed, _, _, h⟩
    · cases h
  · split at h <;> cases h

/-- Digits that are too many for an extent are so when the text goes on with more digits. -/
theorem longExtent_digits {text more : List Char} (hfocus : p.focus.beforeExtent)
    (htext : Terminal.IsDigits text) (hlong : Numeral.maxDigits < text.length)
    (h : readTokens p last (text ++ more) = .done q last') : q.longExtent ≠ none := by
  have hskip := skip_digits htext more
  obtain ⟨c, rest, hcons⟩ := List.exists_cons_of_ne_nil
    (List.append_ne_nil_of_left_ne_nil htext.1 more)
  obtain ⟨t, next, hfront, hfeed, _, _, hrest⟩ := exists_next h (hskip.trans hcons)
  rw [← hcons] at hfront
  obtain rfl := front_digits hfocus htext hfront
  have hdigits : Numeral.maxDigits
      < (digitsOf ⟨.intLit, text ++ more.takeWhile Text.isDecimalDigit⟩).length := by
    rw [digitsOf, List.filterMap_append, List.length_append, length_digits htext.2]
    omega
  obtain ⟨header, after, hextent⟩ := feed_beforeExtent hfocus
    ⟨.intLit, text ++ more.takeWhile Text.isDecimalDigit⟩
  obtain ⟨n, hn⟩ := noted_extent (hextent ▸ hfeed) hdigits
  exact longExtent_ne_none hrest hn

/-- A text with an extent that is too long keeps it, however it goes on. -/
theorem longExtent_of_append {more : List Char} {earlier later : Option (List Char)}
    (h : readTokens p last cs = .done q last') (hq : q.longExtent = some n)
    (hlonger : readTokens p earlier (cs ++ more) = .done r later) : r.longExtent ≠ none := by
  fun_induction readTokens p last cs generalizing earlier with
  | case1 p last cs hskip =>
    cases h
    exact longExtent_ne_none hlonger hq
  | case2 p last cs d others hskip token hfront next hfeed ih =>
    obtain ⟨gap, hcs, hgap⟩ := exists_gap_of_skip hskip
    have htext := Token.text_append_after hfront
    have hfits := (Token.front_fits hfront).2
    generalize token.after (d :: others) = after at htext h ih
    rw [← htext] at hcs hskip hfront
    subst hcs
    cases after with
    | cons e after =>
      -- the token is cut off in the same way
      have hresumes : Resumes (e :: after) (e :: after ++ more) := fun c hc => .inr hc
      have hskip := Token.skipFrom_resumes (Terminal.takes_ne_nil hfits) hskip hresumes
      have hfront := Token.front_resumes hfront hresumes (hresumes.head_ne_point (head_ne_point h))
      rw [List.append_assoc, List.append_assoc, readTokens_next hfits hskip hfront hfeed]
        at hlonger
      exact ih h hlonger
    | nil =>
      rw [readTokens_done rfl] at h
      cases h
      cases hp : p.longExtent with
      | some m => exact longExtent_ne_none hlonger hp
      | none =>
        -- the last token is the extent, and may go on
        obtain ⟨hfocus, hterminal, hlong, -⟩ := feed_noted hfeed hp hq
        have hdigits : Terminal.IsDigits token.text := by
          rw [Token.Fits, hterminal] at hfits
          exact hfits
        rw [digitsOf, length_digits hdigits.2] at hlong
        rw [List.append_nil, List.append_assoc,
          readTokens_congr (Token.skip_gap hgap (token.text ++ more))] at hlonger
        exact longExtent_digits hfocus hdigits hlong hlonger
  | case3 | case4 | case5 => cases h

/-! ## Texts that can be extended -/

/-- A text that can be extended to an accepted source, or that has an extent with too many digits,
which is then all that some extension of it is refused for. -/
inductive Viable (cs : List Char) : Prop where
  | accepted {more : List Char} {program : Node} (h : parseChars (cs ++ more) = .ok program) :
      Viable cs
  | tooLong {digits more : List Char} (hdigits : Terminal.IsDigits digits) (hin : digits <:+: cs)
      (hlong : Numeral.maxDigits < digits.length)
      (hrefused : parseChars (cs ++ more) = .error (.extentTooLong digits.length))
      (hnever : ∀ more program, parseChars (cs ++ more) ≠ .ok program) : Viable cs

theorem exists_of_parseChars {program : Node} (h : parseChars cs = .ok program) :
    ∃ q last, readTokens Parser.initial none cs = .done q last ∧ q.longExtent = none := by
  unfold parseChars at h
  split at h
  · cases h
  · cases h
  · next q last hdone =>
    split at h
    · cases h
    · cases h
    · next hlong => exact ⟨q, last, hdone, hlong⟩

/-- A text that has been read can be read on, behind a line break, to where a program may end. -/
theorem exists_extension (h : readTokens Parser.initial none cs = .done p last) :
    ∃ more q later body, readTokens Parser.initial none (cs ++ '\n' :: more) = .done q later ∧
      q.finish = some body ∧ q.longExtent = p.longExtent := by
  obtain ⟨ts, hreads, -⟩ := exists_reads h
  obtain ⟨us, q, body, hus, hplain, hfinish, hlong⟩ := (Settled.initial.reads hreads).completable
  obtain ⟨earlier, happend⟩ := readTokens_append h (spaced us) none
  obtain ⟨later, hread⟩ := readTokens_parted hus (fun t ht => (hplain t ht).1)
    (fun t ht => (hplain t ht).2) (parted_spaced us) earlier
  exact ⟨spaced us, q, later, body, happend.trans hread, hfinish, hlong⟩

/-- What has been read can be extended, with a line break first. -/
theorem viable_of_read {line : List Char} (h : readTokens Parser.initial none cs = .done p last)
    (hline : line = [] ∨ line = ['\n']) : Viable (cs ++ line) := by
  obtain ⟨more, q, later, body, hread, hfinish, hlong⟩ := exists_extension h
  obtain ⟨added, hadded⟩ : ∃ added, line ++ added = '\n' :: more := by
    rcases hline with rfl | rfl
    · exact ⟨'\n' :: more, rfl⟩
    · exact ⟨more, rfl⟩
  have hwhole : cs ++ line ++ added = cs ++ '\n' :: more := by rw [List.append_assoc, hadded]
  cases hp : p.longExtent with
  | none =>
    have hok : parseChars (cs ++ line ++ added) = .ok (.program body) := by
      rw [hwhole, parseChars, hread]
      simp only [hfinish, hlong.trans hp]
    exact .accepted hok
  | some n =>
    obtain ⟨digits, hdigits, hin, hmany, rfl⟩ := exists_digits h rfl hp
    have hrefused : parseChars (cs ++ line ++ added) = .error (.extentTooLong digits.length) := by
      rw [hwhole, parseChars, hread]
      simp only [hfinish, hlong.trans hp]
    refine .tooLong hdigits (hin.trans (List.prefix_append cs line).isInfix) hmany hrefused ?_
    intro others program hok
    rw [List.append_assoc] at hok
    obtain ⟨r, later, hdone, hnone⟩ := exists_of_parseChars hok
    exact longExtent_of_append h hp hdone hnone

/-- Where an error is found, with what is said of the text before. -/
inductive Located (cs : List Char) : SyntaxError → Prop where
  | token {before after : List Char} {t : Token} (hcs : cs = before ++ (t.text ++ after))
      (hbefore : Viable before) : Located cs (.unexpectedToken t (Place.after before))
  | character {before after : List Char} {c : Char} (hcs : cs = before ++ c :: after)
      (hbefore : Viable before) : Located cs (.unexpectedCharacter c (Place.after before))
  | ending {place : Place} (hbefore : Viable (cs ++ ['\n'])) : Located cs (.unexpectedEnd place)
  | extent {digits : List Char} (hdigits : Terminal.IsDigits digits) (hin : digits <:+: cs)
      (hlong : Numeral.maxDigits < digits.length) : Located cs (.extentTooLong digits.length)

/-- What a syntax error reports stands at the place it names, and the text before that place can be
extended to an accepted source, but for extents that are too long. When the source ends too early,
all of it can be extended. -/
theorem located_of_parse {source : String} {e : SyntaxError} (h : parse source = .error e) :
    Located source.toList e := by
  have hbefore : ∀ {rest}, (readTokens Parser.initial none source.toList).rest? = some rest →
      ∃ before, source.toList = before ++ rest ∧ Viable before ∧
        Place.ofRest source.toList rest = Place.after before := by
    intro rest hrest
    obtain ⟨before, q, later, hsource, hread⟩ := exists_before hrest
    have hviable := viable_of_read hread (.inl rfl)
    rw [List.append_nil] at hviable
    exact ⟨before, hsource, hviable, hsource ▸ ofRest_append before rest⟩
  unfold parse parseChars at h
  split at h
  · next t rest hread =>
    cases h
    obtain ⟨after, rfl⟩ := exists_after_token hread
    obtain ⟨before, hsource, hviable, hplace⟩ := hbefore (congrArg Halt.rest? hread)
    rw [hplace]
    exact .token hsource hviable
  · next c rest hread =>
    cases h
    obtain ⟨after, rfl⟩ := exists_after_character hread
    obtain ⟨before, hsource, hviable, hplace⟩ := hbefore (congrArg Halt.rest? hread)
    rw [hplace]
    exact .character hsource hviable
  · next p last hread =>
    split at h
    · cases h
      exact .ending (viable_of_read hread (.inr rfl))
    · next n hfinish hlong =>
      cases h
      obtain ⟨digits, hdigits, hin, hmany, rfl⟩ := exists_digits hread rfl hlong
      exact .extent hdigits hin hmany
    · cases h

/-- A value that is missing, as it stands in a comment. -/
theorem located_of_parse_semicolon :
    let source := "x := // 1\n  ;"
    let e : SyntaxError := .unexpectedToken ⟨.semicolon, [';']⟩ ⟨2, 3⟩
    parse source = .error e ∧ Located source.toList e := by
  intro source e
  have h : parse source = .error e := by cbv
  exact ⟨h, located_of_parse h⟩

/-! ### An extent that is too long -/

/-- The start of a source, with an extent of so many digits. -/
def longArray (n : Nat) : List Token :=
  [word .array, ⟨.ident, ['a']⟩, sign .colon, word .int, sign .leftSquare,
    ⟨.intLit, List.replicate n '9'⟩, sign .rightSquare, sign .semicolon]

theorem isDigits_nines (hn : n ≠ 0) : Terminal.IsDigits (List.replicate n '9') := by
  refine ⟨fun hnil => hn ((List.replicate_eq_nil_iff _).1 hnil), fun c hc => ?_⟩
  rw [List.eq_of_mem_replicate hc]
  rfl

theorem longArray_fits (hn : n ≠ 0) : ∀ t ∈ longArray n, t.Fits ∧ t.Plain := by
  have hname : Token.Fits ⟨.ident, ['a']⟩ := ⟨'a', [], rfl, by decide, List.forall_mem_nil _⟩
  have hnumber : Token.Fits ⟨.intLit, List.replicate n '9'⟩ := isDigits_nines hn
  simp only [longArray, List.forall_mem_cons]
  exact ⟨fits_sign rfl, ⟨hname, fun _ => by decide⟩, fits_sign rfl, fits_sign rfl, fits_sign rfl,
    ⟨hnumber, nofun⟩, fits_sign rfl, fits_sign rfl, List.forall_mem_nil _⟩

/-- All of it is read, and its extent is noted. -/
theorem longArray_reads (hn : Numeral.maxDigits < n) :
    ∃ q, Reads Parser.initial (longArray n) q ∧ q.focus = .statements ∧ q.longExtent = some n := by
  have hlength : ((List.replicate n '9').filterMap Text.decimalDigit?).length = n := by
    rw [length_digits (isDigits_nines (Nat.ne_zero_of_lt hn)).2, List.length_replicate]
  have hextent : ∀ frames header,
      Parser.feed ⟨.extentFirst header, frames, none⟩ ⟨.intLit, List.replicate n '9'⟩
        = some ⟨.extentMore { header with extents := header.extents ++ [0] }, frames, some n⟩ := by
    intro frames header
    simp only [Parser.feed, Parser.feedExtent, hlength, if_pos hn]
    rfl
  refine ⟨_, .cons rfl rfl <| .cons rfl rfl <| .cons rfl rfl <| .cons rfl rfl <|
    .cons rfl rfl <| .cons rfl (hextent _ _) <| .cons rfl rfl <| .cons rfl rfl .nil, rfl, rfl⟩

theorem mem_spaced (hc : c ∈ spaced ts) : c = ' ' ∨ ∃ t ∈ ts, c ∈ t.text := by
  induction ts with
  | nil => cases hc
  | cons t ts ih =>
    cases ts with
    | nil =>
      have htext : c ∈ t.text := by simpa [spaced] using hc
      exact .inr ⟨t, List.mem_cons_self, htext⟩
    | cons u ts =>
      have hsplit : c ∈ t.text ∨ c = ' ' ∨ c ∈ spaced (u :: ts) := by
        simpa [spaced, List.intercalate] using hc
      rcases hsplit with htext | hblank | hrest
      · exact .inr ⟨t, List.mem_cons_self, htext⟩
      · exact .inl hblank
      · refine (ih hrest).imp_right ?_
        rintro ⟨v, hv, htext⟩
        exact ⟨v, List.mem_cons_of_mem _ hv, htext⟩

theorem ne_of_mem_longArray (hc : c ∈ spaced (longArray n)) : c ≠ '@' ∧ c ≠ '\n' := by
  have hsigns : (longArray 0).all fun t => t.text.all fun d => d ≠ '@' ∧ d ≠ '\n' := by decide
  rcases mem_spaced hc with rfl | ⟨t, ht, hmem⟩
  · decide
  · obtain rfl | ht : t = ⟨.intLit, List.replicate n '9'⟩ ∨ t ∈ longArray 0 := by
      simp only [longArray, List.mem_cons] at ht ⊢
      grind
    · rw [List.eq_of_mem_replicate hmem]
      decide
    · exact of_decide_eq_true (List.all_eq_true.1 (List.all_eq_true.1 hsigns t ht) c hmem)

theorem eq_of_append_singleton {c : Char} {before rest cs : List Char} (hc : c ∉ cs)
    (h : before ++ c :: rest = cs ++ [c]) : before = cs := by
  rcases List.eq_nil_or_concat rest with rfl | ⟨others, d, rfl⟩
  · exact (List.append_inj' h rfl).1
  · have hcs : before ++ c :: others = cs := by
      refine (@List.append_inj' _ _ [d] _ [c] ?_ rfl).1
      simpa using h
    exact absurd (hcs ▸ by simp) hc

/-- The text before a character that is reported is extended in vain, when it has an extent that is
too long. -/
theorem parse_longArray :
    let source := String.ofList (spaced (longArray 4301) ++ ['\n', '@'])
    parse source = .error (.unexpectedCharacter '@' ⟨2, 1⟩) ∧
      ¬ ∃ before after, source.toList = before ++ '@' :: after ∧ Place.after before = ⟨2, 1⟩ ∧
        ∃ more program, parseChars (before ++ more) = .ok program := by
  intro source
  have hn : Numeral.maxDigits < 4301 := by decide
  obtain ⟨q, hreads, hfocus, hlong⟩ := longArray_reads hn
  have hfits := longArray_fits (n := 4301) nofun
  obtain ⟨last, hread⟩ := readTokens_parted hreads (fun t ht => (hfits t ht).1)
    (fun t ht => (hfits t ht).2) (parted_spaced _) none
  have hsource : source.toList = spaced (longArray 4301) ++ ['\n'] ++ ['@'] := by
    rw [String.toList_ofList, List.append_assoc]
    rfl
  have hsign : '@' ∉ spaced (longArray 4301) ++ ['\n'] := by
    rw [List.mem_append, not_or]
    exact ⟨fun hmem => (ne_of_mem_longArray hmem).1 rfl, by decide⟩
  constructor
  · obtain ⟨later, happend⟩ := readTokens_append hread ['@'] none
    have hcharacter : readTokens q later ['@'] = .character '@' ['@'] := by
      have hskip : Token.skip ['@'] = ['@'] := rfl
      have hfront : Token.front q.focus.accepts ['@'] = none := by
        rw [hfocus]
        decide
      have hany : Token.front (fun _ => true) ['@'] = none := by decide
      rw [readTokens_eq, hskip]
      simp only [hfront, hany]
    have hplace : Place.after (spaced (longArray 4301) ++ ['\n']) = ⟨2, 1⟩ := by
      have hline : (spaced (longArray 4301)).count '\n' = 0 :=
        List.count_eq_zero.2 fun hmem => (ne_of_mem_longArray hmem).2 rfl
      simp [Place.after, hline]
    have hwhole : readTokens Parser.initial none source.toList = .character '@' ['@'] := by
      rw [hsource, List.append_assoc]
      exact happend.trans hcharacter
    rw [parse, parseChars, hwhole]
    simp only
    rw [hsource, ofRest_append, hplace]
  · rintro ⟨before, after, hbefore, -, more, program, hok⟩
    rw [hsource] at hbefore
    obtain rfl := eq_of_append_singleton hsign hbefore.symm
    rw [List.append_assoc] at hok
    obtain ⟨r, later, hdone, hnone⟩ := exists_of_parseChars hok
    exact longExtent_of_append hread hlong hdone hnone

end Source

end MiniAlgol
