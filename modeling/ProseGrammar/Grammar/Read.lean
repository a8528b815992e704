import ProseGrammar.Grammar
import ProseGrammar.Grammar.Cursor
import ProseGrammar.Token.Scan
import ProseGrammar.Value.Numeric

/-!
# Reading grammars

Rules are definitions such as `$name := one | another ::2`; a definition ends where the next one
starts. Expressions stand in brackets and bind, loosest first, as conditionals, assignments,
comparisons, sums, products and primaries. Comparisons, sums and products are read as an operand
followed by pairs of an operator and an operand, which group to the left.

Where an expression contains another one, the parsers of the inner level are a parameter, so the
parsers of a level are built from those of the level below, and the deepest level refuses to read.
-/

namespace ProseGrammar

namespace TokenKind

/-! ### Classes of tokens -/

def isAssignment : TokenKind → Bool
  | assign | plusAssign | minusAssign => true
  | _ => false

def isComparison : TokenKind → Bool
  | equal | notEqual | less | greater | lessEqual | greaterEqual => true
  | _ => false

def isAdditive : TokenKind → Bool
  | plus | minus => true
  | _ => false

def isMultiplicative : TokenKind → Bool
  | star | slash => true
  | _ => false

/-- The tokens after which a name is read as a variable and not as a rule. -/
def makesVariable (kind : TokenKind) : Bool :=
  kind.isAdditive || kind.isMultiplicative || kind.isComparison || kind.isAssignment ||
    kind = rightParen

def endsBranch : TokenKind → Bool
  | pipe | semicolon | rightBracket | rightParen | newline | endOfText => true
  | _ => false

def isBranchText : TokenKind → Bool
  | dot | comma | bang | colon | question => true
  | _ => false

end TokenKind

namespace Token

def touches (left right : Token) : Bool :=
  left.position.line = right.position.line &&
    right.position.column = left.position.column + left.value.length

def number? (t : Token) : Except Fault (Option Number) :=
  Value.numberOfText? t.value

def float (t : Token) : Float :=
  match Numeral.ofChars? t.value.toList with
  | some n => n.toFloat
  | none => 0

end Token

namespace Parser

/-! ### References -/

/-- The segments of a path after `last`: each is a point and a name, all written without a gap. -/
def segments (last : Token) : List Token → List String
  | point :: name :: rest =>
    if point.kind = .dot && name.kind = .identifier && last.touches point && point.touches name then
      name.value :: segments name rest
    else []
  | _ => []

def path (first : Token) : Parser (List String) := do
  let c ← get
  let more := segments first c.rest
  set ({ index := c.index + 2 * more.length, rest := c.rest.drop (2 * more.length) } : Cursor)
  return first.value :: more

/-- Reads what follows a dollar sign already taken. -/
def dollar : Parser Node := do
  if ← accept .dollar then
    let _ ← expect .dot .expectedKnowledgeDot
    let first ← expect .identifier .expectedProperty
    let path ← path first
    return .reference ⟨path, true⟩
  else
    let name ← expect .identifier .expectedIdentifier
    let path ← path name
    if path.length > 1 || (← get).kind.makesVariable then return .reference ⟨path, false⟩
    else return .rule name.value

/-! ### Expressions -/

/-- The parsers of the next inner level, and how the target of an assignment to something else than
a variable is named, given the place of the operator. -/
structure Inner where
  expression : Parser Node
  assignment : Parser Node
  conditionalTail : Node → Parser Node
  unnamed : (index : Nat) → Except Fault Reference

namespace Inner

def bracket (inner : Inner) : Parser Node := do
  let silent ← accept .bang
  let first ← inner.expression
  let others ← repeatWhile (fun c => c.kind = .semicolon) do
    let _ ← advance
    inner.expression
  let _ ← expect .rightBracket .expectedClosingBracket
  let node := if others.isEmpty then first else .group (first :: others) false
  return if silent then .silent node else node

def numeral (negative : Bool) : Parser Node := do
  let t ← advance
  match ← t.number? with
  | some n => return .literal (.number (if negative then n.neg else n))
  | none => return .literal .null

/-- Reads an operand: a literal, a reference, or an expression in parentheses or brackets. -/
def primary (inner : Inner) : Parser Node := do
  let c ← get
  match c.kind with
  | .number => numeral false
  | .string | .identifier =>
    let t ← advance
    return .literal (.text t.value)
  | .dollar =>
    let _ ← advance
    dollar
  | .leftParen =>
    let _ ← advance
    let node ← inner.expression
    let _ ← expect .rightParen .expectedClosingParenthesis
    return node
  | .leftBracket =>
    let _ ← advance
    inner.bracket
  | kind =>
    if kind = .minus && c.kindAt 1 = .number then
      let _ ← advance
      numeral true
    else fail (.unexpectedToken c.current.value)

/-- Reads operands with operators of one class between them, grouped to the left. -/
def chain (isOperator : TokenKind → Bool) (operand : Parser Node) : Parser Node := do
  let first ← operand
  let others ← repeatWhile (fun c => isOperator c.kind) do
    let operator ← advance
    let right ← operand
    return (BinaryOp.ofSymbol operator.value, right)
  return others.foldl (fun left other => .binary left other.1 other.2) first

def comparison (inner : Inner) : Parser Node :=
  chain TokenKind.isComparison
    (chain TokenKind.isAdditive (chain TokenKind.isMultiplicative inner.primary))

def finishAssignment (inner : Inner) (target : Reference) : Parser Node := do
  let operator ← advance
  let value ← inner.assignment
  return .assign target (AssignOp.ofSymbol operator.value) value

/-- Reads an assignment, or a comparison if no assignment operator follows. -/
def readAssignment (inner : Inner) : Parser Node := do
  let node ← inner.comparison
  let c ← get
  if c.kind.isAssignment then
    match node with
    | .reference target => inner.finishAssignment target
    | _ =>
      let target ← inner.unnamed c.index
      inner.finishAssignment target
  else return node

def branchPart (inner : Inner) : Parser Node := do
  if (← get).kind.isBranchText then
    let t ← advance
    return .literal (.text t.value)
  else inner.readAssignment

def branch (inner : Inner) (before : List Node) : Parser Node := do
  let others ← repeatWhile (fun c => !c.kind.endsBranch) inner.branchPart
  match before ++ others with
  | [] => fail .emptyBranch
  | [part] => return part
  | parts => return .group parts true

/-- Reads the branches of a conditional; its condition and the question mark are already taken. -/
def readConditionalTail (inner : Inner) (condition : Node) : Parser Node := do
  let whenTrue ← inner.branch []
  if ← accept .pipe then
    let first ← inner.branchPart
    let c ← get
    if c.kind = .question && !(c.kindAt 1).endsBranch then
      let _ ← advance
      let whenFalse ← inner.conditionalTail first
      return .conditional condition whenTrue whenFalse
    else
      let whenFalse ← inner.branch [first]
      return .conditional condition whenTrue whenFalse
  else return .conditional condition whenTrue .missing

def readExpression (inner : Inner) : Parser Node := do
  let condition ← inner.readAssignment
  if ← accept .question then inner.readConditionalTail condition else return condition

def outer (inner : Inner) : Inner where
  expression := inner.readExpression
  assignment := inner.readAssignment
  conditionalTail := inner.readConditionalTail
  unnamed := inner.unnamed

/-- The parsers for expressions that nest at most `depth` levels deep, in which targets are named in
a given way. -/
def levelBy (unnamed : (index : Nat) → Except Fault Reference) : (depth : Nat) → Inner
  | 0 =>
    let refuse : Parser Node := throw .nesting
    ⟨refuse, refuse, fun _ => refuse, unnamed⟩
  | depth + 1 => (levelBy unnamed depth).outer

/-- A value that is assigned to something else than a variable is bound to a name made from the
place of the operator. -/
def anonymous (index : Nat) : Except Fault Reference :=
  .ok ⟨[s!"_anon{index}"], false⟩

def level (depth : Nat) : Inner :=
  levelBy anonymous depth

end Inner

/-! ### Rules -/

def weight : Parser Float := do
  let c ← get
  if c.kind = .minus && c.kindAt 1 = .number then fail .weightNotPositive
  else if c.kind = .number then
    let t ← advance
    if t.float ≤ 0 then throw (.syntactic .weightNotPositive t.position) else return t.float
  else fail .expectedWeight

/-- Reads an element of an alternative: a line break, a bracket, a reference or an assignment to
one; any other token is literal text in its own spelling. -/
def element (inner : Inner) : Parser Node := do
  let t ← advance
  match t.kind with
  | .leftBracket => inner.bracket
  | .dollar =>
    let node ← dollar
    match node with
    | .reference target =>
      if (← get).kind.isAssignment then inner.finishAssignment target else return node
    | _ => return node
  | .newline => return .lineBreak
  | _ => return .literal (.text t.value)

def atElement (c : Cursor) : Bool :=
  c.kind ≠ .endOfText && c.kind ≠ .pipe && c.kind ≠ .doubleColon && !c.atRuleStart

def trimBreaks (elements : List Node) : List Node :=
  ((elements.reverse.dropWhile Node.isLineBreak).reverse).dropWhile Node.isLineBreak

def alternative (inner : Inner) : Parser Alternative := do
  let elements ← repeatWhile atElement (element inner)
  let weight ← if ← accept .doubleColon then weight else pure 1
  let elements := trimBreaks elements
  if elements.isEmpty then fail .emptyAlternative else return ⟨elements, .float weight⟩

def rule (inner : Inner) : Parser Rule := do
  let _ ← expect .dollar .expectedRuleStart
  let name ← expect .identifier .expectedRuleName
  let _ ← expect .define .expectedDefine
  let first ← alternative inner
  let others ← repeatWhile (fun c => c.kind = .pipe) do
    let _ ← advance
    alternative inner
  return ⟨name.value, first :: others⟩

end Parser

/-! ### Grammars -/

/-- What comes of reading a grammar: the rules read before the first fault, and that fault. -/
structure Reading where
  rules : List Rule
  fault : Option Fault

namespace Reading

def nestingLimit : Nat := 1000

/-- Reads rules to the end of the text or the first fault. Every rule takes a token, so there are at
most as many rules as `bound` has tokens. -/
def rulesFrom (inner : Parser.Inner) : (bound : List Token) → Cursor → Reading
  | [], _ => ⟨[], none⟩
  | _ :: bound, c =>
    let c := c.skipBreaks
    if c.kind = .endOfText then ⟨[], none⟩
    else
      match Parser.rule inner c with
      | .error fault => ⟨[], some fault⟩
      | .ok (rule, c) =>
        let others := rulesFrom inner bound c
        ⟨rule :: others.rules, others.fault⟩

/-- Reads a list of tokens in which expressions nest at most `depth` levels deep. -/
def ofTokens (depth : Nat) (tokens : List Token) : Reading :=
  rulesFrom (Parser.Inner.level depth) tokens ⟨0, tokens⟩

def ofSource (source : String) : Reading :=
  match Token.scan source with
  | .ok tokens => ofTokens nestingLimit tokens
  | .error fault => ⟨[], some fault⟩

def grammar (r : Reading) : Except Fault Grammar :=
  match r.fault with
  | some fault => .error fault
  | none =>
    if r.rules.isEmpty then .error (.syntactic .noRules ⟨1, 1⟩) else .ok (Grammar.ofRules r.rules)

/-- The names of rules that are defined after `seen` of their name already are. -/
def redefined (seen : List String) : List Rule → List String
  | [] => []
  | rule :: rest =>
    let others := redefined (rule.name :: seen) rest
    if seen.contains rule.name then rule.name :: others else others

def warnings (r : Reading) : List String :=
  (redefined [] r.rules).map fun name =>
    s!"Rule '${name}' is defined more than once; keeping the last definition"

end Reading

end ProseGrammar
