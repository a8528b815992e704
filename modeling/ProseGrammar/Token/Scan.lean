import ProseGrammar.Decimal.Numeral
import ProseGrammar.Token

/-!
# Splitting text into tokens

Between tokens stand gaps: spaces, tabs, carriage returns, and comments, which run from a number
sign to the end of the line. Where a gap ends, the longest token that fits is taken: an operator of
two characters before one of one character, and as many letters or digits as there are. Line feeds
are tokens, because they separate rules and are text inside alternatives. The list of tokens ends
with a token for the end of the text.
-/

namespace ProseGrammar

/-! ### Characters -/

namespace Text

def isNameStart (c : Char) : Bool :=
  ('a' ≤ c && c ≤ 'z') || ('A' ≤ c && c ≤ 'Z') || c == '_'

def isNameChar (c : Char) : Bool :=
  isNameStart c || Decimal.isDigit c

def isGap (c : Char) : Bool :=
  c == ' ' || c == '\t' || c == '\r'

end Text

/-! ### Places -/

namespace Position

def step (p : Position) (c : Char) : Position :=
  if c = '\n' then ⟨p.line + 1, 1⟩ else ⟨p.line, p.column + 1⟩

def after (p : Position) (cs : List Char) : Position :=
  cs.foldl step p

end Position

/-! ### Lexemes -/

/-- The token at the front of a text: its kind, its value, and how many characters it takes after
its first. -/
structure Lexeme where
  kind : TokenKind
  value : List Char
  more : Nat
  deriving DecidableEq

namespace Lexeme

def unescape : Char → Char
  | 'n' => '\n'
  | 't' => '\t'
  | 'r' => '\r'
  | c => c

/-- The value of a string after its opening quote, and the number of characters up to and including
its closing quote. -/
def quotedBody? (quote : Char) : List Char → Option (List Char × Nat)
  | [] => none
  | c :: rest =>
    if c = quote then some ([], 1)
    else if c = '\\' then
      match rest with
      | [] => none
      | e :: rest => (quotedBody? quote rest).map fun body => (unescape e :: body.1, body.2 + 2)
    else (quotedBody? quote rest).map fun body => (c :: body.1, body.2 + 1)

/-- The point and the digits that continue a numeral; a point that no digit follows does not. -/
def fraction : List Char → List Char
  | '.' :: d :: rest => if Decimal.isDigit d then '.' :: d :: rest.takeWhile Decimal.isDigit else []
  | _ => []

def plain (kind : TokenKind) (c : Char) (more : List Char) : Lexeme :=
  ⟨kind, c :: more, more.length⟩

def pair? (c : Char) : List Char → Option Lexeme
  | [] => none
  | d :: _ => (TokenKind.ofPair? c d).map fun kind => plain kind c [d]

def operator? (c : Char) (rest : List Char) : Option Lexeme :=
  (pair? c rest).or ((TokenKind.ofChar? c).map fun kind => plain kind c [])

/-- The lexeme at the front of a text that does not start with a gap. -/
def read (c : Char) (rest : List Char) : Except LexicalCause Lexeme :=
  if c = '\n' then .ok (plain .newline c [])
  else
    match operator? c rest with
    | some lexeme => .ok lexeme
    | none =>
      if c = '"' || c = '\'' then
        match quotedBody? c rest with
        | some (value, more) => .ok ⟨.string, value, more⟩
        | none => .error .unterminatedString
      else if Decimal.isDigit c then
        let whole := rest.takeWhile Decimal.isDigit
        .ok (plain .number c (whole ++ fraction (rest.drop whole.length)))
      else if Text.isNameStart c then
        .ok (plain .identifier c (rest.takeWhile Text.isNameChar))
      else .error (.unexpectedCharacter c)

end Lexeme

/-! ### Token lists -/

namespace Token

def scanFrom (position : Position) : List Char → Except Fault (List Token)
  | [] => .ok [⟨.endOfText, "", position⟩]
  | c :: rest =>
    if Text.isGap c then scanFrom (position.step c) rest
    else if c = '#' then
      let comment := rest.takeWhile (· ≠ '\n')
      scanFrom (position.after (c :: comment)) (rest.drop comment.length)
    else
      match Lexeme.read c rest with
      | .error cause => .error (.lexical cause position)
      | .ok lexeme => do
        let taken := c :: rest.take lexeme.more
        let tokens ← scanFrom (position.after taken) (rest.drop lexeme.more)
        return ⟨lexeme.kind, String.ofList lexeme.value, position⟩ :: tokens
termination_by cs => cs.length
decreasing_by all_goals simp only [List.length_cons, List.length_drop]; omega

def scan (source : String) : Except Fault (List Token) :=
  scanFrom ⟨1, 1⟩ source.toList

end Token

end ProseGrammar
