import MiniAlgol.Source.Parser
import MiniAlgol.Source.Place

/-!
Source text to program tree.
-/

namespace MiniAlgol.Source

/-- How reading the tokens of a text can end. Texts are endings of the source, so that each marks
a place in it. -/
inductive Halt where
  | done (parser : Parser) (last : Option (List Char))
  /-- The token at the front of the text has no use. -/
  | token (token : Token) (rest : List Char)
  | character (c : Char) (rest : List Char)

-- `hs` and `ht` are used in `decreasing_by` only, which the linter does not see.
set_option linter.unusedVariables false in
/-- Takes the tokens of a text one after the other. `last` is the text from the last token on. A
text that starts with no accepted token may still start with another one, which is then the one
to report. -/
def readTokens (p : Parser) (last : Option (List Char)) (cs : List Char) : Halt :=
  match hs : Token.skip cs with
  | [] => .done p last
  | c :: rest =>
    match ht : Token.front p.focus.accepts (c :: rest) with
    | some token =>
      match p.feed token with
      | some next => readTokens next (some (c :: rest)) (token.after (c :: rest))
      | none => .token token (c :: rest)
    | none =>
      match Token.front (fun _ => true) (c :: rest) with
      | some token => .token token (c :: rest)
      | none => .character c (c :: rest)
termination_by cs.length
decreasing_by
  have shorter := Token.length_after_lt ht
  have le := Token.length_skip_le cs
  rw [hs] at le
  omega

def parseChars (source : List Char) : Except SyntaxError Node :=
  match readTokens Parser.initial none source with
  | .token token rest => .error (.unexpectedToken token (Place.ofRest source rest))
  | .character c rest => .error (.unexpectedCharacter c (Place.ofRest source rest))
  | .done p last =>
    match p.finish, p.longExtent with
    | none, _ => .error (.unexpectedEnd (Place.ofRest source (last.getD source)))
    | some _, some digits => .error (.extentTooLong digits)
    | some body, none => .ok (.program body)

def parse (source : String) : Except SyntaxError Node :=
  parseChars source.toList

end MiniAlgol.Source
