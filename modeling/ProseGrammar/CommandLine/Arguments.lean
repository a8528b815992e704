import ProseGrammar.Text.Blank
import ProseGrammar.Text.Digits
import ProseGrammar.Decimal.Numeral

/-!
# Options and operands

The arguments of a command are options, which start with a hyphen, and operands. An option may be
given by its full name or by any beginning of it that no other option has, with its value attached
by an equals sign or as the next argument. Options that have a letter may be given by it, several
in one argument, and an equals sign after the first letter is passed over. Options and operands may
come in any order. After an argument of two hyphens all arguments are operands, and so are negative
numbers.
-/

namespace ProseGrammar.CommandLine

/-! ### Options -/

/-- An option: its name, which starts with two hyphens, its letter if it has one, and whether a
value belongs to it. -/
structure OptionSpec where
  name : String
  letter : Option Char
  takesValue : Bool
  deriving DecidableEq

/-- What is attached to an option: a value, by an equals sign, or the letters that follow its
letter. -/
inductive Attached
  | nothing
  | value (text : String)
  | letters (text : List Char)
  deriving DecidableEq

/-- How an argument reads. -/
inductive Argument
  | operand (text : String)
  | separator
  | option (spec : OptionSpec) (attached : Attached)
  | unknownOption
  deriving DecidableEq

/-! ### Reading one argument -/

def splitEquals (cs : List Char) : List Char × Option String :=
  let before := cs.takeWhile (· ≠ '=')
  match cs.drop before.length with
  | [] => (before, none)
  | _ :: after => (before, some (String.ofList after))

/-- Whether an argument is a negative number: digits, or a point and digits after it. A line feed at
the end does not count. -/
def isNegativeNumber (cs : List Char) : Bool :=
  let isDigit := fun c => (Text.digitValue? c).isSome
  match cs with
  | '-' :: rest =>
    let rest := if rest.getLast? = some '\n' then rest.dropLast else rest
    match rest.dropWhile isDigit with
    | [] => !rest.isEmpty
    | c :: fraction => c == '.' && !fraction.isEmpty && fraction.all isDigit
  | _ => false

def named (specs : List OptionSpec) (start : List Char) : List OptionSpec :=
  specs.filter fun spec => start.isPrefixOf spec.name.toList

def lettered? (specs : List OptionSpec) (letter : Char) : Option OptionSpec :=
  specs.find? fun spec => spec.letter = some letter

def attachedValue : Option String → Attached
  | some text => .value text
  | none => .nothing

def readOther (cs : List Char) : Argument :=
  if isNegativeNumber cs || cs.contains ' ' then .operand (String.ofList cs) else .unknownOption

/-- Reads an argument that starts with two hyphens. Its full name goes before names that it
abbreviates; nothing comes of it if it abbreviates several. -/
def readNamed (specs : List OptionSpec) (cs : List Char) : Option Argument :=
  let (start, attached) := splitEquals cs
  match specs.find? fun spec => spec.name.toList = start with
  | some spec => some (.option spec (attachedValue attached))
  | none =>
    match named specs start with
    | [] => some (readOther cs)
    | [spec] => some (.option spec (attachedValue attached))
    | _ => none

def attachedLetters : List Char → Attached
  | [] => .nothing
  | ['='] => .value ""
  | '=' :: letters => .letters letters
  | letters => .letters letters

def readLettered (specs : List OptionSpec) (letter : Char) (more cs : List Char) : Argument :=
  match lettered? specs letter with
  | some spec => .option spec (attachedLetters more)
  | none => readOther cs

def readArgument (specs : List OptionSpec) (arg : String) : Option Argument :=
  match arg.toList with
  | '-' :: '-' :: _ => readNamed specs arg.toList
  | '-' :: letter :: more => some (readLettered specs letter more arg.toList)
  | _ => some (.operand arg)

/-- Reads the arguments of a command; nothing comes of them if one is ambiguous. -/
def readArguments (specs : List OptionSpec) : List String → Option (List Argument)
  | [] => some []
  | arg :: rest =>
    if arg = "--" then some (.separator :: rest.map .operand)
    else do
      let argument ← readArgument specs arg
      return argument :: (← readArguments specs rest)

/-! ### Integers -/

/-- Turns decimal digits of any script into ASCII digits, and drops single underscores between two
digits; nothing comes of other characters. -/
def plainDigits? : (afterDigit : Bool) → List Char → Option (List Char)
  | afterDigit, [] => if afterDigit then some [] else none
  | true, '_' :: rest => plainDigits? false rest
  | _, c :: rest => do
    let d ← Text.asciiDigit? c
    return d :: (← plainDigits? true rest)

def integer? (arg : String) : Option Int := do
  let (negative, rest) := Numeral.sign (Text.trimBy Text.isMargin arg.toList)
  let digits ← plainDigits? false rest
  (Numeral.integer negative digits).toOption

end ProseGrammar.CommandLine
