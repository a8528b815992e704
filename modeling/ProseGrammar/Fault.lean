import ProseGrammar.Text.Quoted
import ProseGrammar.Text.Utf8

/-!
# Faults

Every way in which reading, rendering or running a grammar can fail is a cause with the facts that
its message names. The wording of all messages is in this module.
-/

namespace ProseGrammar

/-- A place in grammar text: lines and columns count from one, columns in characters. -/
structure Position where
  line : Nat
  column : Nat
  deriving DecidableEq, Repr

/-! ### Causes -/

/-- Why a text does not split into tokens. -/
inductive LexicalCause
  | unterminatedString
  | unexpectedCharacter (c : Char)
  deriving DecidableEq

/-- Why a list of tokens is no grammar. -/
inductive SyntaxCause
  | expectedRuleStart
  | expectedRuleName
  | expectedDefine
  | emptyAlternative
  | expectedWeight
  | weightNotPositive
  | expectedClosingBracket
  | expectedClosingParenthesis
  | expectedKnowledgeDot
  | expectedProperty
  | expectedIdentifier
  | emptyBranch
  | unexpectedToken (text : String)
  | noRules
  deriving DecidableEq

/-- Why an evaluation has no result. -/
inductive EvaluationCause
  | noStartRule
  | noAlternatives (rule : String)
  | depthLimit (limit : Nat)
  | depthExhausted
  | undefined (name : String)
  | unresolved (reference : String) (cause : EvaluationCause)
  | parentNotObject (property place : String)
  | missingProperty (property place available : String)
  | nullProperty (property place : String)
  | valueNotObject (property shown : String)
  | assignThroughVariable (name : String)
  | assignThroughProperty (property : String)
  | subtractionFromText
  | unknownAssignment (symbol : String)
  | needsNumbers (symbol left right : String)
  | divisionByZero
  | unknownOperator (symbol : String)
  | notANode (kind : String)
  deriving DecidableEq

/-- Why a text is not JSON. -/
inductive JsonCause
  | byteOrderMark
  | expectedValue
  | expectedKey
  | expectedColon
  | expectedComma
  | unterminatedString
  | controlCharacter
  | unknownEscape
  | malformedEscape
  | extraData
  deriving DecidableEq

/-- What was being done where the stack of calls had no room left. -/
inductive StackUse
  | copying
  | rendering
  | readingObject
  | readingList
  | showing
  | writing
  deriving DecidableEq

/-- Every way to fail. -/
inductive Fault
  | lexical (cause : LexicalCause) (position : Position)
  | syntactic (cause : SyntaxCause) (position : Position)
  /-- Brackets nest too deeply to be read. -/
  | nesting
  /-- A failed evaluation, at the rule or reference that was being resolved. -/
  | evaluation (cause : EvaluationCause) (path : Option String)
  /-- Decimal text of an integer with too many digits: how many, when it was being read. -/
  | integerText (digits : Option Nat)
  /-- An integer beyond the range of the doubles. -/
  | integerRange
  /-- A quotient of integers beyond the range of the doubles. -/
  | quotientRange
  /-- A draw that is no number where a position is drawn. -/
  | floorOfNaN
  /-- An infinite draw where a position is drawn. -/
  | floorOfInfinity
  /-- A position outside a list, or a reference without a name. -/
  | indexRange
  /-- An operation on kinds of values that it is not defined for. -/
  | unsupportedOperands (symbol left right : String)
  /-- A value of a kind that has no entries where entries are read. -/
  | noEntries (kind : String)
  /-- A value of a kind that has no entries where one is set. -/
  | notSettable (kind : String)
  /-- A value that does not list anything where a list of pairs is expected. -/
  | notListing (kind : String)
  /-- A member of a list of pairs that does not list anything. -/
  | notPair (index : Nat)
  /-- A member of a list of pairs that lists more or fewer than two values. -/
  | pairLength (index length : Nat)
  /-- A value of a kind that cannot be a key. -/
  | notKey (kind : String)
  | badWeight (shown : String)
  | badMaxDepth
  | knowledgeNotObject (kind : String)
  | notRenderable (kind : String)
  /-- A text that is not JSON, with the place in it and the number of characters in front. -/
  | jsonSyntax (cause : JsonCause) (position : Position) (index : Nat)
  | jsonNotObject
  /-- Half of a surrogate pair on its own, which is no character of a text. -/
  | loneSurrogate (unit : Nat)
  | encoding (fault : Text.Utf8Fault)
  /-- A directory where a file is expected. -/
  | isDirectory (path : String)
  /-- A file that cannot be opened, and the reason that the system gives. -/
  | unreadable (path reason : String)
  /-- Calls that stand inside each other too deeply, other than those of a run. -/
  | stack (use : StackUse)
  /-- A blank option where a number is compared. -/
  | blankCompared
  /-- A blank seed where seeds are counted up. -/
  | blankSeed
  deriving DecidableEq

/-! ### Wording -/

namespace LexicalCause

def message : LexicalCause → String
  | unterminatedString => "Unterminated string"
  | unexpectedCharacter c => "Unexpected character: " ++ Text.quoted (String.singleton c)

end LexicalCause

namespace SyntaxCause

def message : SyntaxCause → String
  | expectedRuleStart => "Expected '$' before rule name"
  | expectedRuleName => "Expected rule name after '$'"
  | expectedDefine => "Expected ':=' after rule name"
  | emptyAlternative => "Empty alternative"
  | expectedWeight => "Expected weight after '::'"
  | weightNotPositive => "Alternative weight must be positive"
  | expectedClosingBracket => "Expected ']' after bracketed expression"
  | expectedClosingParenthesis => "Expected ')' after expression"
  | expectedKnowledgeDot => "Expected '.' after '$$'"
  | expectedProperty => "Expected property name after '$$.'"
  | expectedIdentifier => "Expected identifier after '$'"
  | emptyBranch => "Expected expression in conditional branch"
  | unexpectedToken text => "Unexpected token in expression: " ++ Text.quoted text
  | noRules => "No rules found"

end SyntaxCause

namespace EvaluationCause

def message : EvaluationCause → String
  | noStartRule => "No start rule defined"
  | noAlternatives rule => s!"Rule {rule} has no alternatives"
  | depthLimit limit => s!"Maximum expansion depth of {limit} exceeded"
  | depthExhausted => "Maximum expansion depth exceeded"
  | undefined name => s!"Variable or rule '{name}' not defined"
  | unresolved reference cause => s!"Failed to resolve variable {reference}: " ++ cause.message
  | parentNotObject property place =>
    s!"Cannot access property '{property}' of non-object at {place}"
  | missingProperty property place available =>
    s!"Property '{property}' not found at {place}. Available: [{available}]"
  | nullProperty property place => s!"Property '{property}' is null at {place}"
  | valueNotObject property shown =>
    s!"Cannot access property '{property}' of " ++ Text.quoted shown
  | assignThroughVariable name => s!"Cannot assign through non-object variable '{name}'"
  | assignThroughProperty property => s!"Cannot assign through non-object property '{property}'"
  | subtractionFromText => "Subtraction is only valid for numeric values"
  | unknownAssignment symbol => s!"Unknown assignment operator: {symbol}"
  | needsNumbers symbol left right =>
    s!"Operator '{symbol}' needs numeric operands, got " ++ Text.quoted left ++ " and " ++
      Text.quoted right
  | divisionByZero => "Division by zero"
  | unknownOperator symbol => s!"Unknown operator: {symbol}"
  | notANode kind => s!"Unknown node type: {kind}"

end EvaluationCause

namespace JsonCause

def message : JsonCause → String
  | byteOrderMark => "Unexpected UTF-8 BOM (decode using utf-8-sig)"
  | expectedValue => "Expecting value"
  | expectedKey => "Expecting property name enclosed in double quotes"
  | expectedColon => "Expecting ':' delimiter"
  | expectedComma => "Expecting ',' delimiter"
  | unterminatedString => "Unterminated string starting at"
  | controlCharacter => "Invalid control character at"
  | unknownEscape => "Invalid \\escape"
  | malformedEscape => "Invalid \\uXXXX escape"
  | extraData => "Extra data"

end JsonCause

namespace StackUse

def message : StackUse → String
  | copying => "maximum recursion depth exceeded while calling a Python object"
  | rendering => "maximum recursion depth exceeded"
  | readingObject =>
    "maximum recursion depth exceeded while decoding a JSON object from a unicode string"
  | readingList =>
    "maximum recursion depth exceeded while decoding a JSON array from a unicode string"
  | showing => "maximum recursion depth exceeded while getting the repr of an object"
  | writing => "maximum recursion depth exceeded while encoding a JSON object"

end StackUse

namespace Text.Utf8Fault

def message (fault : Text.Utf8Fault) : String :=
  let reason := match fault.cause with
    | .invalidStart => "invalid start byte"
    | .invalidContinuation => "invalid continuation byte"
    | .unexpectedEnd => "unexpected end of data"
  let place :=
    if fault.taken = 1 then
      let hex := String.ofList (Text.hexDigits 2 fault.first.toNat)
      s!"byte 0x{hex} in position {fault.position}"
    else
      let last := fault.position + fault.taken - 1
      s!"bytes in position {fault.position}-{last}"
  s!"'utf-8' codec can't decode {place}: {reason}"

end Text.Utf8Fault

namespace Fault

def located (position : Position) (message : String) : String :=
  s!"[Line {position.line}, Col {position.column}] " ++ message

def message : Fault → String
  | lexical cause position => located position cause.message
  | syntactic cause position => located position cause.message
  | nesting => "Expression nested too deeply"
  | evaluation cause none => "Evaluation error: " ++ cause.message
  | evaluation cause (some path) => s!"Evaluation error at {path}: " ++ cause.message
  | integerText digits =>
    let count := match digits with
      | some n => s!": value has {n} digits"
      | none => ""
    "Exceeds the limit (4300 digits) for integer string conversion" ++ count ++
      "; use sys.set_int_max_str_digits() to increase the limit"
  | integerRange => "int too large to convert to float"
  | quotientRange => "integer division result too large for a float"
  | floorOfNaN => "cannot convert float NaN to integer"
  | floorOfInfinity => "cannot convert float infinity to integer"
  | indexRange => "list index out of range"
  | unsupportedOperands symbol left right =>
    s!"unsupported operand type(s) for {symbol}: '{left}' and '{right}'"
  | noEntries kind => s!"'{kind}' object has no attribute 'get'"
  | notSettable kind =>
    if kind = "list" then "list indices must be integers or slices, not str"
    else s!"'{kind}' object does not support item assignment"
  | notListing kind => s!"'{kind}' object is not iterable"
  | notPair index => s!"cannot convert dictionary update sequence element #{index} to a sequence"
  | pairLength index length =>
    s!"dictionary update sequence element #{index} has length {length}; 2 is required"
  | notKey kind => s!"unhashable type: '{kind}'"
  | badWeight shown => s!"Weight must be positive, got {shown}"
  | badMaxDepth => "max_depth must be at least 1"
  | knowledgeNotObject kind => s!"knowledge must be a dict, got {kind}"
  | notRenderable kind => s!"Cannot render node: {kind}"
  | jsonSyntax cause position index =>
    s!"{cause.message}: line {position.line} column {position.column} (char {index})"
  | jsonNotObject => "knowledge must be a JSON object"
  | loneSurrogate unit =>
    let hex := String.ofList (Text.hexDigits 4 unit)
    s!"'utf-8' codec can't encode character '\\u{hex}': surrogates not allowed"
  | encoding fault => fault.message
  | isDirectory path => "[Errno 21] Is a directory: " ++ Text.quoted path
  | unreadable path reason => reason ++ ": " ++ Text.quoted path
  | stack use => use.message
  | blankCompared => "'<' not supported between instances of 'list' and 'int'"
  | blankSeed => "can only concatenate list (not \"int\") to list"

end Fault

end ProseGrammar
