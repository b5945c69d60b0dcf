import MiniAlgol.Text.DecimalDigit
import MiniAlgol.Text.Quoted

/-!
The arguments of the command line.

Options may be shortened to any beginning that only one of them has, short options may be joined,
and the value of an option may follow an equals sign. After `--` nothing is an option. All
arguments are told apart before any of them takes effect, and then take effect from left to right.
-/

namespace MiniAlgol.Command

/-- What the arguments ask for. -/
structure Options where
  verbosity : Nat := 0
  emitAst : Option String := none
  ast : Option String := none
  program : Option String := none
  deriving DecidableEq, Repr

/-- The options. -/
inductive Flag where
  | help
  | verbose
  | emitAst
  | ast
  deriving DecidableEq, Repr

namespace Flag

/-- Every spelling of every option, in the order in which they are listed. -/
def spellings : List (String × Flag) :=
  [("-h", help), ("--help", help), ("-v", verbose), ("--emit-ast", emitAst), ("--ast", ast)]

def ofSpelling? (s : String) : Option Flag :=
  spellings.lookup s

def ofLetter? : Char → Option Flag
  | 'h' => some help
  | 'v' => some verbose
  | _ => none

def name : Flag → String
  | help => "-h/--help"
  | verbose => "-v"
  | emitAst => "--emit-ast"
  | ast => "--ast"

end Flag

def aboutFlag (flag : Flag) (message : String) : String :=
  "argument " ++ flag.name ++ ": " ++ message

/-- What is said about a value that an option does not take. -/
def ignoredValue (flag : Flag) (value : List Char) : String :=
  aboutFlag flag ("ignored explicit argument " ++ Text.quote (String.ofList value))

/-- An argument, told apart from the others. -/
inductive Item where
  | operand (text : String)
  /-- The mark after which nothing is an option. -/
  | mark
  | flag (flag : Flag)
  | flagWith (flag : Flag) (value : String)
  /-- Letters joined to one, or text after an equals sign that follows one. -/
  | letters (flag : Flag) (rest : List Char)
  | unknown (text : String)
  deriving DecidableEq, Repr

/-- The argument as it was written, as far as it can be left over. -/
def Item.leftover : Item → String
  | operand text | unknown text => text
  | mark => "--"
  | flag f | flagWith f _ | letters f _ => f.name

def splitEquals (cs : List Char) : Option (List Char × List Char) :=
  match cs.dropWhile (· != '=') with
  | _ :: value => some (cs.takeWhile (· != '='), value)
  | [] => none

/-- Whether the text is a negative number, which is no option. -/
def isNegativeNumber (cs : List Char) : Bool :=
  match cs with
  | '-' :: rest =>
    let body := if rest.getLast? = some '\n' then rest.dropLast else rest
    let whole := body.takeWhile Text.isDecimalDigit
    match body.dropWhile Text.isDecimalDigit with
    | [] => !whole.isEmpty
    | '.' :: fraction => !fraction.isEmpty && fraction.all Text.isDecimalDigit
    | _ => false
  | _ => false

/-- An option whose spelling is complete, with the value behind an equals sign if there is one. -/
def known (flag : Flag) (isLong : Bool) (value : Option (List Char)) : Item :=
  match value with
  | none => .flag flag
  | some value =>
    if isLong then .flagWith flag (String.ofList value) else .letters flag value

def candidates (start : List Char) : List (String × Flag) :=
  Flag.spellings.filter fun (s, _) => start.isPrefixOf s.toList

/-- What an argument is that starts with a dash and is no option. -/
def otherwise (text : String) : Item :=
  if isNegativeNumber text.toList || text.toList.contains ' ' then .operand text
  else .unknown text

/-- Tells an argument apart; fails when it is the beginning of several options. -/
def classify (text : String) : Except String Item :=
  let cs := text.toList
  match cs with
  | '-' :: c :: rest =>
    match Flag.ofSpelling? text with
    | some flag => .ok (.flag flag)
    | none =>
      let (start, value) := match splitEquals cs with
        | some (start, value) => (start, some value)
        | none => (cs, none)
      match if value.isSome then Flag.ofSpelling? (String.ofList start) else none with
      | some flag => .ok (known flag (c == '-') value)
      | none =>
        if c = '-' then
          match candidates start with
          | [] => .ok (otherwise text)
          | [(_, flag)] => .ok (known flag true value)
          | several => .error ("ambiguous option: " ++ text ++ " could match "
              ++ ", ".intercalate (several.map Prod.fst))
        else
          match Flag.ofLetter? c with
          | some flag => .ok (.letters flag rest)
          | none => .ok (otherwise text)
  | _ => .ok (.operand text)

def classifyAll : List String → Except String (List Item)
  | [] => .ok []
  | text :: rest =>
    if text = "--" then .ok (.mark :: rest.map .operand)
    else do
      let item ← classify text
      let items ← classifyAll rest
      return item :: items

/-- The options that joined letters stand for; the letters follow `flag`. -/
def joined (flag : Flag) : List Char → Except String (List Flag)
  | [] => .ok [flag]
  | c :: rest =>
    match Flag.ofLetter? c with
    | some next => (joined next rest).map (flag :: ·)
    | none => .error (ignoredValue flag (c :: rest))

/-- What reading the arguments comes to, unless they are wrong. -/
inductive Request where
  | options (o : Options)
  | help
  deriving DecidableEq, Repr

/-- What has been read of the arguments. -/
structure Progress where
  options : Options := {}
  programTaken : Bool := false
  /-- Arguments that nothing takes, in reverse. -/
  extras : List String := []

namespace Progress

/-- Sets the value of an option that takes one. The two of them exclude each other. A value `--`
counts as empty. -/
def setValue (p : Progress) (flag : Flag) (value : String) : Except String Progress :=
  let given := if value = "--" then "" else value
  match flag with
  | .emitAst =>
    if p.options.ast.isSome then
      .error (aboutFlag flag ("not allowed with argument " ++ Flag.ast.name))
    else .ok { p with options := { p.options with emitAst := some given } }
  | .ast =>
    if p.options.emitAst.isSome then
      .error (aboutFlag flag ("not allowed with argument " ++ Flag.emitAst.name))
    else .ok { p with options := { p.options with ast := some given } }
  | .help | .verbose => .error (ignoredValue flag value.toList)

def addVerbosity (p : Progress) (count : Nat) : Progress :=
  { p with options := { p.options with verbosity := p.options.verbosity + count } }

def addOperand (p : Progress) (text : String) : Progress :=
  if p.programTaken then { p with extras := text :: p.extras }
  else { p with options := { p.options with program := some text }, programTaken := true }

def leave (p : Progress) (items : List Item) : Progress :=
  { p with extras := (items.map Item.leftover).reverse ++ p.extras }

/-- Takes what follows the mark, behind which there are no options. -/
def afterMark (p : Progress) (items : List Item) : Progress :=
  if p.programTaken then p.leave (.mark :: items)
  else
    match items with
    | .operand text :: rest => (p.addOperand text).leave rest
    | items => p.leave items

end Progress

/-- Lets the arguments take effect one after the other. -/
def consume (p : Progress) : List Item → Except String (Progress ⊕ Unit)
  | [] => .ok (.inl p)
  | .operand text :: .mark :: rest =>
    if p.programTaken then .ok (.inl (p.leave (.operand text :: .mark :: rest)))
    else .ok (.inl ((p.addOperand text).leave rest))
  | .operand text :: rest => consume (p.addOperand text) rest
  | .mark :: rest => .ok (.inl (p.afterMark rest))
  | .unknown text :: rest => consume { p with extras := text :: p.extras } rest
  | .flag .help :: _ => .ok (.inr ())
  | .flag .verbose :: rest => consume (p.addVerbosity 1) rest
  | .flag flag :: .operand value :: rest =>
    match p.setValue flag value with
    | .ok p => consume p rest
    | .error e => .error e
  | .flag flag :: _ => .error (aboutFlag flag "expected one argument")
  | .flagWith flag value :: rest =>
    match p.setValue flag value with
    | .ok p => consume p rest
    | .error e => .error e
  | .letters flag [] :: _ => .error (ignoredValue flag [])
  | .letters flag letters :: rest =>
    match joined flag letters with
    | .error e => .error e
    | .ok flags =>
      if flags.contains .help then .ok (.inr ()) else consume (p.addVerbosity flags.length) rest

/-- Reads the arguments; an error says what is wrong with them. -/
def Request.ofArguments (arguments : List String) : Except String Request := do
  match ← consume {} (← classifyAll arguments) with
  | .inr () => return .help
  | .inl p =>
    if p.extras.isEmpty then return .options p.options
    else .error ("unrecognized arguments: " ++ " ".intercalate p.extras.reverse)

def usage : String :=
  "usage: algol60 [-h] [-v] [--emit-ast SOURCE_FILE | --ast AST_JSON_FILE]\n"
    ++ "               [program]\n"

def helpText : String :=
  usage ++ "\nALGOL 60 interpreter\n\npositional arguments:\n"
    ++ "  program               program file to execute\n\noptions:\n"
    ++ "  -h, --help            show this help message and exit\n"
    ++ "  -v                    increase debug verbosity (can be repeated)\n"
    ++ "  --emit-ast SOURCE_FILE\n"
    ++ "                        emit AST JSON for the given source file\n"
    ++ "  --ast AST_JSON_FILE   execute AST from a JSON file\n"

def usageError (message : String) : String :=
  usage ++ "algol60: error: " ++ message ++ "\n"

end MiniAlgol.Command
