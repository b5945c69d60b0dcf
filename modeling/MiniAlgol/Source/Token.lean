import MiniAlgol.Source.Terminal

/-!
Tokens: how a source text is cut into terminals.

What may come next depends on the place in the grammar, so the cut is made under a set of accepted
terminals. Blanks and comments between tokens are skipped. Where a name is accepted, a reserved
word is the whole of a name that equals it; where none is, the word is taken off the front of
whatever follows.
-/

namespace MiniAlgol

/-- A terminal with its text. -/
structure Token where
  terminal : Terminal
  text : List Char
  deriving DecidableEq, Repr

namespace Token

def isSpace (c : Char) : Bool :=
  c == ' ' || c == '\t' || c == '\x0c' || c == '\r' || c == '\n'

/-- Drops blanks and comments from the front. The flag says whether the text starts inside a
comment, which ends with the line. -/
def skipFrom : Bool → List Char → List Char
  | _, [] => []
  | true, c :: cs => skipFrom (c != '\n') cs
  | false, c :: cs =>
    if isSpace c then skipFrom false cs
    else if c == '/' && cs.head? == some '/' then skipFrom true cs
    else c :: cs

/-- Drops blanks and comments from the front. -/
def skip (cs : List Char) : List Char :=
  skipFrom false cs

/-- The terminal that a match stands for: a name that is an accepted reserved word is that word. -/
def reserve (accepts : Terminal → Bool) (t : Terminal) (text : List Char) : Terminal :=
  match t with
  | .ident =>
    match Keyword.ofText? text with
    | some k => if accepts (.keyword k) then .keyword k else .ident
    | none => .ident
  | t => t

/-- The first accepted terminal that takes text from the front, and how much. -/
def matchWidth (accepts : Terminal → Bool) (cs : List Char) : Option (Terminal × Nat) :=
  Terminal.all.findSome? fun t => if accepts t then (t.width cs).map (t, ·) else none

/-- The token at the front of the text, which starts with neither a blank nor a comment. -/
def front (accepts : Terminal → Bool) (cs : List Char) : Option Token :=
  (matchWidth accepts cs).map fun (t, n) => ⟨reserve accepts t (cs.take n), cs.take n⟩

/-- The text after a token at the front. -/
def after (token : Token) (cs : List Char) : List Char :=
  cs.drop token.text.length

/-! ### What cutting keeps -/

/-- A token and the text after it make up the text it was cut from. -/
theorem text_append_after {accepts : Terminal → Bool} {cs : List Char} {token : Token}
    (h : front accepts cs = some token) : token.text ++ token.after cs = cs := by
  obtain ⟨⟨t, n⟩, _, rfl⟩ := Option.map_eq_some_iff.1 h
  simp only [after, List.length_take]
  rcases Nat.le_total n cs.length with le | le
  · rw [Nat.min_eq_left le, List.take_append_drop]
  · rw [Nat.min_eq_right le, List.take_of_length_le le, List.drop_length, List.append_nil]

theorem length_skipFrom_le (inComment : Bool) (cs : List Char) :
    (skipFrom inComment cs).length ≤ cs.length := by
  fun_induction skipFrom inComment cs <;> grind

theorem length_skip_le (cs : List Char) : (skip cs).length ≤ cs.length :=
  length_skipFrom_le false cs

theorem matchWidth_pos {accepts : Terminal → Bool} {cs : List Char} {t : Terminal} {n : Nat}
    (h : matchWidth accepts cs = some (t, n)) : 0 < n := by
  obtain ⟨u, _, hit⟩ := List.exists_of_findSome?_eq_some h
  split at hit
  · obtain ⟨m, hm, eq⟩ := Option.map_eq_some_iff.1 hit
    cases eq
    exact Terminal.width_pos hm
  · simp at hit

/-- A token takes at least one character off the text. -/
theorem length_after_lt {accepts : Terminal → Bool} {c : Char} {cs : List Char} {token : Token}
    (h : front accepts (c :: cs) = some token) :
    (token.after (c :: cs)).length < (c :: cs).length := by
  obtain ⟨⟨t, n⟩, hit, rfl⟩ := Option.map_eq_some_iff.1 h
  have := matchWidth_pos hit
  simp [after]
  omega

end Token

end MiniAlgol
