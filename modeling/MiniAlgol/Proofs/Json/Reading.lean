import MiniAlgol.Json.Reader
import MiniAlgol.Json.Writer
import MiniAlgol.Proofs.Value.Digits

/-!
# Reading what was written

The indented text of a value is read as that value again (`read_pretty`), if the value is plain: it
has no real and no integer that is too long to read, and no object has a name twice. The text has
no carriage return, so that it is the same text after it was kept in a file.
-/

namespace MiniAlgol.Json

variable {c : Char} {cs rest acc : List Char} {j item : Json} {items : List Json}
  {members : List (String × Json)} {name : String} {level fuel : Nat}

/-- A value that can be read from its text: it has no real, its integers can be written, and the
names in each object are distinct. -/
inductive Plain : Json → Prop where
  | null : Plain .null
  | bool (b : Bool) : Plain (.bool b)
  | int {n : Int} (hn : n.natAbs < Numeral.writeBound) : Plain (.int n)
  | str (s : String) : Plain (.str s)
  | arr {items : List Json} (hitems : ∀ j ∈ items, Plain j) : Plain (.arr items)
  | obj {members : List (String × Json)} (hnames : (members.map Prod.fst).Nodup)
      (hmembers : ∀ m ∈ members, Plain m.2) : Plain (.obj members)

/-! ## Strings -/

/-- Control characters have codes of two digits, so that two of the four are zeros. -/
theorem hexDigits_four {n : Nat} (hn : n < 0x20) :
    Text.hexDigits 4 n = ['0', '0', Nat.digitChar (n / 16), Nat.digitChar (n % 16)] := by
  revert n
  decide

theorem hexValue?_digitChar {d : Nat} (hd : d < 16) : hexValue? (Nat.digitChar d) = some d := by
  revert d
  decide

/-- The escape of a control character is read as that character. -/
theorem readStringFrom_code (hc : c.toNat < 0x20) :
    readStringFrom (.code none 3 0) acc (Text.hexDigits 4 c.toNat ++ cs)
      = readStringFrom (.between none) (c :: acc) cs := by
  have hvalue : 16 * (c.toNat / 16) + c.toNat % 16 = c.toNat := Nat.div_add_mod _ _
  have hcode : takeCode none c.toNat acc = (.between none, c :: acc) := by
    rw [takeCode, if_neg (by omega), if_neg (by omega), Char.ofNat_toNat]
  simp only [hexDigits_four hc, List.cons_append, List.nil_append, readStringFrom,
    hexValue?_digitChar (show c.toNat / 16 < 16 by omega),
    hexValue?_digitChar (show c.toNat % 16 < 16 by omega), show hexValue? '0' = some 0 from rfl,
    Nat.mul_zero, Nat.add_zero, Nat.zero_add, hvalue, hcode]

/-- What is written for a character of a string is read as that character, between two characters as
well as in front of the first one. -/
theorem readStringFrom_escapeChar (c : Char) (acc cs : List Char) :
    readStringFrom (.between none) acc (escapeChar c ++ cs)
      = readStringFrom (.between none) (c :: acc) cs := by
  unfold escapeChar
  split_ifs with hquote hbackslash hnewline hreturn htab hfeed hback hcontrol
  · subst hquote; rfl
  · subst hbackslash; rfl
  · subst hnewline; rfl
  · subst hreturn; rfl
  · subst htab; rfl
  · subst hfeed; rfl
  · subst hback; rfl
  · exact readStringFrom_code hcontrol
  · rw [List.singleton_append, readStringFrom, if_neg hquote, if_neg hbackslash, if_neg hcontrol]
    rfl

/-- A string is read up to the quote that ends it: the quotes in it are escaped. -/
theorem readString_escaped (s : String) (rest : List Char) :
    readString (s.toList.flatMap escapeChar ++ '"' :: rest) = .ok (s, rest) := by
  -- what was read so far is kept in reverse
  have hfrom : ∀ (cs acc : List Char),
      readStringFrom (.between none) acc (cs.flatMap escapeChar ++ '"' :: rest)
        = .ok (String.ofList (acc.reverse ++ cs), rest) := by
    intro cs
    induction cs with
    | nil => intro acc; simp [readStringFrom, closeHalf]
    | cons c cs ih =>
      intro acc
      rw [List.flatMap_cons, List.append_assoc, readStringFrom_escapeChar, ih]
      simp
  rw [readString, hfrom]
  simp

theorem carriageReturn_notMem_escapeChar (c : Char) : '\r' ∉ escapeChar c := by
  have hdigit : ∀ d < 16, '\r' ≠ Nat.digitChar d := by decide
  unfold escapeChar
  split_ifs with hquote hbackslash hnewline hreturn htab hfeed hback hcontrol
  · decide
  · decide
  · decide
  · decide
  · decide
  · decide
  · decide
  · simp [hexDigits_four hcontrol, hdigit (c.toNat / 16) (by omega),
      hdigit (c.toNat % 16) (by omega)]
  · simpa using Ne.symm hreturn

/-! ## Numbers -/

/-- Whether what follows a number ends it. -/
def EndsNumber (rest : List Char) : Prop :=
  ∀ c ∈ rest.head?, c.isDigit = false ∧ c ≠ '.' ∧ c ≠ 'e' ∧ c ≠ 'E'

/-- The digits of a number are taken as far as they go, and none of them stands after a zero in
front. -/
theorem splitWhole_toDigits (n : Nat) (hrest : EndsNumber rest) :
    splitWhole (Nat.toDigits 10 n ++ rest) = (Nat.toDigits 10 n, rest) := by
  have hdigits : ∀ d ∈ Nat.toDigits 10 n, d.isDigit := fun _ => Numeral.isDigit_of_mem_toDigits
  have htake : rest.takeWhile Char.isDigit = [] ∧ rest.dropWhile Char.isDigit = rest := by
    cases rest with
    | nil => exact ⟨rfl, rfl⟩
    | cons c rest =>
      have hc := (hrest c rfl).1
      simp [hc]
  unfold splitWhole
  split
  · next zs heq =>
    -- nothing stands after a zero in front
    obtain ⟨d, ds, hds, -⟩ := Numeral.exists_toDigits_eq_cons n
    rw [hds, List.cons_append, List.cons.injEq] at heq
    obtain ⟨rfl, rfl⟩ := heq
    rw [hds, Numeral.eq_nil_of_toDigits_eq_zero_cons hds]
    rfl
  · rw [List.takeWhile_append_of_pos hdigits, List.dropWhile_append_of_pos hdigits, htake.1,
      htake.2, List.append_nil]

theorem splitPoint_eq (hrest : EndsNumber rest) : splitPoint rest = ([], rest) := by
  unfold splitPoint
  split
  · exact absurd rfl (hrest '.' rfl).2.1
  · rfl

theorem splitExponent_eq (hrest : EndsNumber rest) : splitExponent rest = (none, rest) := by
  unfold splitExponent
  split
  · rfl
  · next c cs =>
    obtain ⟨-, -, hlower, hupper⟩ := hrest c rfl
    rw [if_neg (by simp [hlower, hupper])]

/-- Digits with no point and no exponent after them are an integer, which is short enough to be
read. -/
theorem readMagnitude_toDigits {n : Nat} (negative : Bool) (hn : n < Numeral.writeBound)
    (hrest : EndsNumber rest) :
    readMagnitude negative (Nat.toDigits 10 n ++ rest)
      = .ok (.int (Numeral.signed negative n), rest) := by
  have hshort : ¬ Numeral.maxDigits < ((Nat.toDigits 10 n).filterMap Text.decimalDigit?).length :=
    Nat.not_lt.2 (Numeral.length_filterMap_toDigits_le hn)
  have hne : (Nat.toDigits 10 n).isEmpty = false := by
    rw [List.isEmpty_eq_false_iff]
    exact Nat.toDigits_ne_nil
  simp only [readMagnitude, splitWhole_toDigits n hrest, splitPoint_eq hrest,
    splitExponent_eq hrest, hne, Bool.false_eq_true, if_false, List.append_nil, List.isEmpty_nil,
    Option.isNone_none, Bool.and_self, if_true, hshort, Numeral.ofDigits_toDigits]

/-- The text of an integer is a minus sign, where it is negative, and digits. -/
theorem toList_decimal (n : Int) :
    (Numeral.decimal n).toList
      = if n < 0 then '-' :: Nat.toDigits 10 n.natAbs else Nat.toDigits 10 n.natAbs := by
  unfold Numeral.decimal
  split
  · rw [String.toList_append, Nat.toList_repr]
    rfl
  · exact Nat.toList_repr

theorem readNumber_digit (hc : c.isDigit) :
    readNumber (c :: cs) = readMagnitude false (c :: cs) := by
  have hminus : c ≠ '-' := Numeral.ne_of_isDigit hc (by decide)
  simp [readNumber, hminus]

/-- An integer is read from its text, with its sign. -/
theorem readNumber_decimal {n : Int} (hn : n.natAbs < Numeral.writeBound)
    (hrest : EndsNumber rest) :
    readNumber ((Numeral.decimal n).toList ++ rest) = .ok (.int n, rest) := by
  rw [toList_decimal]
  split
  · next hneg =>
    rw [List.cons_append, readNumber, readMagnitude_toDigits true hn hrest, Numeral.signed,
      if_pos rfl, Int.ofNat_natAbs_of_nonpos (Int.le_of_lt hneg), Int.neg_neg]
  · next hnonneg =>
    obtain ⟨d, ds, hds, hd⟩ := Numeral.exists_toDigits_eq_cons n.natAbs
    have hread := readMagnitude_toDigits false hn hrest
    rw [hds, List.cons_append] at hread ⊢
    rw [readNumber_digit hd, hread, Numeral.signed, if_neg (by decide),
      Int.natAbs_of_nonneg (Int.not_lt.1 hnonneg)]

/-- No word starts with a digit, or with a minus sign and a digit. -/
theorem readWord?_eq_none (hc : c.isDigit) :
    readWord? (c :: cs) = none ∧ readWord? ('-' :: c :: cs) = none := by
  have hne : ∀ d : Char, d.isDigit = false → c ≠ d := fun _ => Numeral.ne_of_isDigit hc
  constructor
  · simp [readWord?, hne 'n' rfl, hne 't' rfl, hne 'f' rfl, hne 'N' rfl, hne 'I' rfl, hne '-' rfl]
  · simp [readWord?, hne 'I' rfl]

/-- A minus sign or a digit starts a number, unless a word for a real begins so. -/
theorem readValue_number (hc : c = '-' ∨ c.isDigit)
    (hword : readWord? (c :: cs) = none) :
    readValue (fuel + 1) (c :: cs) = readNumber (c :: cs) := by
  have hne : ∀ d : Char, d ≠ '-' → d.isDigit = false → c ≠ d := by
    rintro d hminus hdigit rfl
    exact hc.elim hminus (by rw [hdigit]; decide)
  simp [readValue, hne '"' (by decide) rfl, hne '[' (by decide) rfl, hne '{' (by decide) rfl, hword]

/-! ## Layout -/

theorem skipLayout_cons (hc : isLayout c = false) : skipLayout (c :: cs) = c :: cs := by
  rw [skipLayout, List.dropWhile_cons, hc]
  rfl

/-- A line break and the blanks that indent the next line are all skipped. -/
theorem skipLayout_lineBreak (level : Nat) (cs : List Char) :
    skipLayout (lineBreak level ++ cs) = skipLayout cs := by
  have hlayout : ∀ c ∈ lineBreak level, isLayout c := by
    intro c hc
    rcases List.mem_cons.1 hc with rfl | hc
    · rfl
    · rw [List.eq_of_mem_replicate hc]
      rfl
  exact List.dropWhile_append_of_pos hlayout

theorem endsNumber_cons (hc : c.isDigit = false ∧ c ≠ '.' ∧ c ≠ 'e' ∧ c ≠ 'E') :
    EndsNumber (c :: cs) := by
  intro d hd
  cases hd
  exact hc

theorem endsNumber_items (hrest : EndsNumber rest) :
    EndsNumber (prettyItems level items ++ rest) := by
  cases items with
  | nil => exact hrest
  | cons => exact endsNumber_cons (by decide)

theorem endsNumber_members (hrest : EndsNumber rest) :
    EndsNumber (prettyMembers level members ++ rest) := by
  cases members with
  | nil => exact hrest
  | cons => exact endsNumber_cons (by decide)

theorem endsNumber_lineBreak : EndsNumber (lineBreak level ++ rest) :=
  endsNumber_cons (by decide)

/-! ## Values -/

/-- The text of a value starts with no blank and with no bracket that closes. -/
theorem Plain.exists_cons (hj : Plain j) (level : Nat) :
    ∃ c cs, prettyChars level j = c :: cs ∧ isLayout c = false ∧ c ≠ ']' := by
  cases hj with
  | null => exact ⟨_, _, rfl, by decide⟩
  | bool b => cases b <;> exact ⟨_, _, rfl, by decide⟩
  | @int n _ =>
    rw [prettyChars, toList_decimal]
    split
    · exact ⟨_, _, rfl, by decide⟩
    · obtain ⟨d, ds, hds, hd⟩ := Numeral.exists_toDigits_eq_cons n.natAbs
      have hne : ∀ c : Char, c.isDigit = false → d ≠ c := fun _ => Numeral.ne_of_isDigit hd
      refine ⟨d, ds, hds, ?_, hne _ (by decide)⟩
      simp [isLayout, hne]
  | str s => exact ⟨_, _, rfl, by decide⟩
  | @arr items _ => cases items <;> exact ⟨_, _, rfl, by decide⟩
  | @obj members _ _ => cases members <;> exact ⟨_, _, rfl, by decide⟩

/-- So nothing is skipped in front of a value. -/
theorem Plain.skipLayout_eq (hj : Plain j) (level : Nat) (rest : List Char) :
    skipLayout (prettyChars level j ++ rest) = prettyChars level j ++ rest := by
  obtain ⟨c, cs, hcs, hc, -⟩ := hj.exists_cons level
  rw [hcs, List.cons_append, skipLayout_cons hc]

/-- The value is read from its text, whatever ends it there. -/
def ReadsBack (j : Json) : Prop :=
  ∀ (level fuel : Nat) (rest : List Char), EndsNumber rest → (prettyChars level j).length ≤ fuel →
    readValue fuel (prettyChars level j ++ rest) = .ok (j, rest)

variable {value : Json} {after more : List Char}

theorem readItems_last (hread : readValue fuel cs = .ok (item, after))
    (hafter : skipLayout after = ']' :: rest) : readItems (fuel + 1) cs = .ok ([item], rest) := by
  simp only [readItems, hread, bind, Except.bind, hafter]

theorem readItems_more (hread : readValue fuel cs = .ok (item, after))
    (hafter : skipLayout after = ',' :: more)
    (hmore : readItems fuel (skipLayout more) = .ok (items, rest)) :
    readItems (fuel + 1) cs = .ok (item :: items, rest) := by
  simp only [readItems, hread, bind, Except.bind, hafter, hmore]

/-- The items after an opening bracket are read up to the one that closes it, each on a line of its
own. There is fuel for as many steps as the text has characters. -/
theorem readItems_pretty (outer : Nat) (rest : List Char)
    (hitem : Plain item ∧ ReadsBack item) (hitems : ∀ j ∈ items, Plain j ∧ ReadsBack j)
    (hfuel : (prettyChars level item).length + (prettyItems level items).length < fuel) :
    readItems fuel (prettyChars level item
        ++ (prettyItems level items ++ (lineBreak outer ++ ']' :: rest)))
      = .ok (item :: items, rest) := by
  -- on the items that follow: a comma comes after each but the last
  induction items generalizing item fuel with
  | nil =>
    obtain ⟨fuel, rfl⟩ := Nat.exists_eq_succ_of_ne_zero (Nat.ne_zero_of_lt hfuel)
    refine readItems_last (hitem.2 _ _ _ endsNumber_lineBreak (by omega)) ?_
    exact (skipLayout_lineBreak _ _).trans (skipLayout_cons (by decide))
  | cons next items ih =>
    obtain ⟨fuel, rfl⟩ := Nat.exists_eq_succ_of_ne_zero (Nat.ne_zero_of_lt hfuel)
    rw [List.forall_mem_cons] at hitems
    refine readItems_more (hitem.2 _ _ _ (endsNumber_items endsNumber_lineBreak) (by omega))
      (skipLayout_cons (by decide)) ?_
    simp only [prettyItems, List.length_append, List.length_cons] at hfuel
    simp only [List.append_eq, List.append_assoc, skipLayout_lineBreak,
      hitems.1.1.skipLayout_eq]
    exact ih hitems.1 hitems.2 (by omega)

theorem readMembers_last (hread : readValue fuel (skipLayout cs) = .ok (value, after))
    (hafter : skipLayout after = '}' :: rest) :
    readMembers (fuel + 1) (writeString name ++ ':' :: cs) = .ok ([(name, value)], rest) := by
  simp only [writeString, List.cons_append, List.append_assoc, List.nil_append, readMembers,
    readString_escaped, bind, Except.bind, skipLayout_cons (show isLayout ':' = false from rfl),
    hread, hafter]

theorem readMembers_more (hread : readValue fuel (skipLayout cs) = .ok (value, after))
    (hafter : skipLayout after = ',' :: more)
    (hmore : readMembers fuel (skipLayout more) = .ok (members, rest)) :
    readMembers (fuel + 1) (writeString name ++ ':' :: cs)
      = .ok ((name, value) :: members, rest) := by
  simp only [writeString, List.cons_append, List.append_assoc, List.nil_append, readMembers,
    readString_escaped, bind, Except.bind, skipLayout_cons (show isLayout ':' = false from rfl),
    hread, hafter, hmore]

/-- The value of a member follows a blank. -/
theorem readValue_afterBlank (hvalue : Plain value ∧ ReadsBack value) (hrest : EndsNumber rest)
    (hfuel : (prettyChars level value).length ≤ fuel) :
    readValue fuel (skipLayout (' ' :: (prettyChars level value ++ rest))) = .ok (value, rest) := by
  rw [show skipLayout (' ' :: (prettyChars level value ++ rest))
      = skipLayout (prettyChars level value ++ rest) from rfl, hvalue.1.skipLayout_eq]
  exact hvalue.2 _ _ _ hrest hfuel

theorem skipLayout_writeString (name : String) (rest : List Char) :
    skipLayout (writeString name ++ rest) = writeString name ++ rest :=
  skipLayout_cons (by decide)

/-- The members of an object are read in the same way, each of them a name and a value. -/
theorem readMembers_pretty (outer : Nat) (rest : List Char)
    (hvalue : Plain value ∧ ReadsBack value) (hmembers : ∀ m ∈ members, Plain m.2 ∧ ReadsBack m.2)
    (hfuel : (prettyChars level value).length + (prettyMembers level members).length < fuel) :
    readMembers fuel (writeString name ++ ':' :: ' ' :: (prettyChars level value
        ++ (prettyMembers level members ++ (lineBreak outer ++ '}' :: rest))))
      = .ok ((name, value) :: members, rest) := by
  induction members generalizing name value fuel with
  | nil =>
    obtain ⟨fuel, rfl⟩ := Nat.exists_eq_succ_of_ne_zero (Nat.ne_zero_of_lt hfuel)
    refine readMembers_last (readValue_afterBlank hvalue endsNumber_lineBreak (by omega)) ?_
    exact (skipLayout_lineBreak _ _).trans (skipLayout_cons (by decide))
  | cons next members ih =>
    obtain ⟨nextName, next⟩ := next
    obtain ⟨fuel, rfl⟩ := Nat.exists_eq_succ_of_ne_zero (Nat.ne_zero_of_lt hfuel)
    rw [List.forall_mem_cons] at hmembers
    refine readMembers_more (readValue_afterBlank hvalue
      (endsNumber_members endsNumber_lineBreak) (by omega)) (skipLayout_cons (by decide)) ?_
    simp only [prettyMembers, List.length_append, List.length_cons] at hfuel
    simp only [List.append_eq, List.append_assoc, List.cons_append, skipLayout_lineBreak,
      skipLayout_writeString]
    exact ih hmembers.1 hmembers.2 (by omega)

/-! ## Objects -/

/-- A new name goes to the end of an object. -/
theorem put_new (hname : name ∉ members.map Prod.fst) :
    Members.put members name value = members ++ [(name, value)] := by
  induction members with
  | nil => rfl
  | cons m members ih =>
    rw [List.map_cons, List.mem_cons, not_or] at hname
    obtain ⟨first, old⟩ := m
    rw [Members.put, if_neg (Ne.symm hname.1), ih hname.2, List.cons_append]

/-- Members with distinct names stay as they were written. -/
theorem ofWritten_eq (hnames : (members.map Prod.fst).Nodup) :
    Members.ofWritten members = members := by
  -- those that were put already are in front of the ones to come
  have hfold : ∀ (members before : List (String × Json)),
      ((before ++ members).map Prod.fst).Nodup →
      members.foldl (fun ms m => Members.put ms m.1 m.2) before = before ++ members := by
    intro members
    induction members with
    | nil => simp
    | cons m members ih =>
      intro before hnames
      have hnew : m.1 ∉ before.map Prod.fst := by
        rw [List.map_append, List.map_cons, List.nodup_append] at hnames
        intro hmem
        exact hnames.2.2 m.1 hmem m.1 List.mem_cons_self rfl
      rw [List.foldl_cons, put_new hnew, ih _ (by simpa using hnames), List.append_assoc]
      rfl
  exact hfold members [] hnames

/-- Fuel for the text of a value is enough for a step, because no text is empty. -/
theorem Plain.exists_fuel (hj : Plain j) (hfuel : (prettyChars level j).length ≤ fuel) :
    ∃ f, fuel = f + 1 := by
  obtain ⟨c, cs, hcs, -⟩ := hj.exists_cons level
  rw [hcs, List.length_cons] at hfuel
  exact Nat.exists_eq_succ_of_ne_zero (by omega)

/-- The first character of an integer tells the reader that it is one. -/
theorem readValue_decimal {n : Int} (hn : n.natAbs < Numeral.writeBound)
    (hrest : EndsNumber rest) :
    readValue (fuel + 1) ((Numeral.decimal n).toList ++ rest) = .ok (.int n, rest) := by
  have hread := readNumber_decimal hn hrest
  obtain ⟨d, ds, hds, hd⟩ := Numeral.exists_toDigits_eq_cons n.natAbs
  rw [toList_decimal, hds] at hread ⊢
  split at hread
  · next hneg =>
    rw [if_pos hneg]
    exact (readValue_number (.inl rfl) (readWord?_eq_none hd).2).trans hread
  · next hnonneg =>
    rw [if_neg hnonneg]
    exact (readValue_number (.inr hd) (readWord?_eq_none hd).1).trans hread

theorem readValue_items (hcs : skipLayout cs = c :: more) (hc : c ≠ ']')
    (hitems : readItems fuel (c :: more) = .ok (items, rest)) :
    readValue (fuel + 1) ('[' :: cs) = .ok (.arr items, rest) := by
  simp [readValue, hcs, hc, hitems, Except.map]

theorem readValue_members (hcs : skipLayout cs = c :: more) (hc : c ≠ '}')
    (hmembers : readMembers fuel (c :: more) = .ok (members, rest)) :
    readValue (fuel + 1) ('{' :: cs) = .ok (.obj (Members.ofWritten members), rest) := by
  simp [readValue, hcs, hc, hmembers, Except.map]

theorem readsBack_arr (hitems : ∀ j ∈ items, Plain j ∧ ReadsBack j) : ReadsBack (.arr items) := by
  intro level fuel rest hrest hfuel
  obtain ⟨fuel, rfl⟩ := (Plain.arr fun j hj => (hitems j hj).1).exists_fuel hfuel
  cases items with
  | nil => rfl
  | cons item items =>
    rw [List.forall_mem_cons] at hitems
    -- the brackets and the line breaks leave enough fuel for the items
    simp only [prettyChars, List.length_append, List.length_cons] at hfuel
    have hread := @readItems_pretty item items (level + 1) fuel level rest hitems.1 hitems.2
      (by omega)
    obtain ⟨c, cs, hcs, hlayout, hbracket⟩ := hitems.1.1.exists_cons (level + 1)
    simp only [prettyChars, List.cons_append, List.append_assoc, List.nil_append, hcs] at hread ⊢
    refine readValue_items ?_ hbracket hread
    rw [skipLayout_lineBreak, skipLayout_cons hlayout]

theorem readsBack_obj (hnames : (members.map Prod.fst).Nodup)
    (hmembers : ∀ m ∈ members, Plain m.2 ∧ ReadsBack m.2) : ReadsBack (.obj members) := by
  intro level fuel rest hrest hfuel
  obtain ⟨fuel, rfl⟩ := (Plain.obj hnames fun m hm => (hmembers m hm).1).exists_fuel hfuel
  cases members with
  | nil => rfl
  | cons m members =>
    obtain ⟨name, value⟩ := m
    rw [List.forall_mem_cons] at hmembers
    simp only [prettyChars, List.length_append, List.length_cons] at hfuel
    have hread := @readMembers_pretty members name (level + 1) fuel value level rest hmembers.1
      hmembers.2 (by omega)
    simp only [prettyChars, List.cons_append, List.append_assoc, List.nil_append]
    refine (readValue_members ?_ (by decide) hread).trans ?_
    · rw [skipLayout_lineBreak]
      exact skipLayout_writeString _ _
    · rw [ofWritten_eq hnames]

/-- A plain value is read from its text. -/
theorem Plain.readsBack (hj : Plain j) : ReadsBack j := by
  induction hj with
  | null =>
    intro level fuel rest hrest hfuel
    obtain ⟨fuel, rfl⟩ := Plain.null.exists_fuel hfuel
    rfl
  | bool b =>
    intro level fuel rest hrest hfuel
    obtain ⟨fuel, rfl⟩ := (Plain.bool b).exists_fuel hfuel
    cases b <;> rfl
  | int hn =>
    intro level fuel rest hrest hfuel
    obtain ⟨fuel, rfl⟩ := (Plain.int hn).exists_fuel hfuel
    exact readValue_decimal hn hrest
  | str s =>
    intro level fuel rest hrest hfuel
    obtain ⟨fuel, rfl⟩ := (Plain.str s).exists_fuel hfuel
    simp only [prettyChars, writeString, List.cons_append, List.append_assoc, List.nil_append,
      readValue, readString_escaped, Except.map]
  | arr hitems ih => exact readsBack_arr fun j hj => ⟨hitems j hj, ih j hj⟩
  | obj hnames hmembers ih => exact readsBack_obj hnames fun m hm => ⟨hmembers m hm, ih m hm⟩

/-- The whole text of a plain value is read as that value, with nothing left over. -/
theorem read_pretty (hj : Plain j) : read j.pretty = .ok j := by
  have hread := hj.readsBack 0 ((prettyChars 0 j).length + 1) [] (by simp [EndsNumber]) (by omega)
  have hstart := hj.skipLayout_eq 0 []
  rw [List.append_nil] at hread hstart
  simp only [read, pretty, String.toList_ofList, hstart, hread, bind, Except.bind]
  rfl

/-! ## Line endings -/

theorem carriageReturn_notMem_writeString (s : String) : '\r' ∉ writeString s := by
  intro hmem
  simp only [writeString, List.cons_append, List.mem_cons, List.mem_append, List.mem_flatMap,
    List.not_mem_nil, or_false] at hmem
  rcases hmem with heq | ⟨c, -, hc⟩ | heq
  · exact absurd heq (by decide)
  · exact carriageReturn_notMem_escapeChar c hc
  · exact absurd heq (by decide)

theorem carriageReturn_notMem_lineBreak (level : Nat) : '\r' ∉ lineBreak level := by
  intro hmem
  rcases List.mem_cons.1 hmem with heq | hmem
  · exact absurd heq (by decide)
  · exact absurd (List.eq_of_mem_replicate hmem) (by decide)

theorem carriageReturn_notMem_items (hitems : ∀ j ∈ items, ∀ level, '\r' ∉ prettyChars level j) :
    '\r' ∉ prettyItems level items := by
  induction items with
  | nil => exact List.not_mem_nil
  | cons item items ih =>
    rw [List.forall_mem_cons] at hitems
    simp [prettyItems, carriageReturn_notMem_lineBreak, hitems.1, ih hitems.2]

theorem carriageReturn_notMem_members
    (hmembers : ∀ m ∈ members, ∀ level, '\r' ∉ prettyChars level m.2) :
    '\r' ∉ prettyMembers level members := by
  induction members with
  | nil => exact List.not_mem_nil
  | cons m members ih =>
    rw [List.forall_mem_cons] at hmembers
    simp [prettyMembers, carriageReturn_notMem_lineBreak, carriageReturn_notMem_writeString,
      hmembers.1, ih hmembers.2]

theorem carriageReturn_notMem_decimal (n : Int) : '\r' ∉ (Numeral.decimal n).toList := by
  have hdigits : '\r' ∉ Nat.toDigits 10 n.natAbs := fun hmem =>
    absurd (Numeral.isDigit_of_mem_toDigits hmem) (by decide)
  rw [toList_decimal]
  split
  · simpa using hdigits
  · exact hdigits

/-- The text of a plain value has no carriage return, since a string has it escaped. So a file gives
back the text that was put into it. -/
theorem Plain.carriageReturn_notMem (hj : Plain j) (level : Nat) : '\r' ∉ prettyChars level j := by
  induction hj generalizing level with
  | null => simp [prettyChars]
  | bool b => cases b <;> simp [prettyChars]
  | int => exact carriageReturn_notMem_decimal _
  | str s => exact carriageReturn_notMem_writeString s
  | @arr items _ ih =>
    cases items with
    | nil => simp [prettyChars]
    | cons item items =>
      rw [List.forall_mem_cons] at ih
      simp [prettyChars, carriageReturn_notMem_lineBreak, ih.1, carriageReturn_notMem_items ih.2]
  | @obj members _ _ ih =>
    cases members with
    | nil => simp [prettyChars]
    | cons m members =>
      rw [List.forall_mem_cons] at ih
      simp [prettyChars, carriageReturn_notMem_lineBreak, carriageReturn_notMem_writeString, ih.1,
        carriageReturn_notMem_members ih.2]

end MiniAlgol.Json
