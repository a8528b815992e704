import ProseGrammar.Fault

/-!
# Tokens

Grammar text is a sequence of tokens. A token has a kind, a value and the place where it starts; the
value is the text it stands for, which for a string is the text between its quotes with the escapes
resolved.
-/

namespace ProseGrammar

/-- The kinds of tokens. -/
inductive TokenKind
  | string | number | identifier
  | assign | plusAssign | minusAssign | define
  | plus | minus | star | slash
  | equal | notEqual | less | greater | lessEqual | greaterEqual
  | dot | comma | pipe | colon | doubleColon | question | bang | semicolon | dollar
  | leftParen | rightParen | leftBracket | rightBracket
  | newline | endOfText
  deriving DecidableEq, Repr

namespace TokenKind

def name : TokenKind → String
  | string => "STRING"
  | number => "NUMBER"
  | identifier => "IDENTIFIER"
  | assign => "ASSIGN"
  | plusAssign => "PLUS_ASSIGN"
  | minusAssign => "MINUS_ASSIGN"
  | define => "DEFINE"
  | plus => "PLUS"
  | minus => "MINUS"
  | star => "STAR"
  | slash => "SLASH"
  | equal => "EQ"
  | notEqual => "NOT_EQ"
  | less => "LT"
  | greater => "GT"
  | lessEqual => "LT_EQ"
  | greaterEqual => "GT_EQ"
  | dot => "DOT"
  | comma => "COMMA"
  | pipe => "PIPE"
  | colon => "COLON"
  | doubleColon => "DOUBLE_COLON"
  | question => "QUESTION"
  | bang => "BANG"
  | semicolon => "SEMICOLON"
  | dollar => "DOLLAR"
  | leftParen => "LPAREN"
  | rightParen => "RPAREN"
  | leftBracket => "LBRACKET"
  | rightBracket => "RBRACKET"
  | newline => "NEWLINE"
  | endOfText => "EOF"

def ofChar? : Char → Option TokenKind
  | '(' => some leftParen
  | ')' => some rightParen
  | '[' => some leftBracket
  | ']' => some rightBracket
  | '.' => some dot
  | ',' => some comma
  | '|' => some pipe
  | '?' => some question
  | ';' => some semicolon
  | '$' => some dollar
  | '+' => some plus
  | '-' => some minus
  | '*' => some star
  | '/' => some slash
  | '=' => some assign
  | '!' => some bang
  | '<' => some less
  | '>' => some greater
  | ':' => some colon
  | _ => none

def ofPair? : Char → Char → Option TokenKind
  | ':', '=' => some define
  | ':', ':' => some doubleColon
  | '+', '=' => some plusAssign
  | '-', '=' => some minusAssign
  | '=', '=' => some equal
  | '!', '=' => some notEqual
  | '<', '=' => some lessEqual
  | '>', '=' => some greaterEqual
  | _, _ => none

end TokenKind

/-- A token of grammar text. -/
structure Token where
  kind : TokenKind
  value : String
  position : Position
  deriving DecidableEq, Repr

namespace Token

def inspect (t : Token) : String :=
  let shown := Text.quoted t.value
  s!"Token({t.kind.name}, {shown}, L{t.position.line}:{t.position.column})"

end Token

end ProseGrammar
