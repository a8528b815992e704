import ProseGrammar.Grammar
import ProseGrammar.Stack
import ProseGrammar.Token.Scan
import ProseGrammar.Value.Display

/-!
# Grammars as text

Every node has a source text that reads back as the same node wherever the reader can produce it.
Two contexts differ: as an element of an alternative a node stands in running text, so operators
and conditionals need brackets there; as an operand a node needs brackets when it binds more
loosely than its context.
-/

namespace ProseGrammar

/-! ### Literals -/

namespace Text

def isName : List Char → Bool
  | [] => false
  | c :: rest => isNameStart c && rest.all isNameChar

/-- Whether a text is a numeral of digits with an optional fraction. -/
def isPlainNumeral (cs : List Char) : Bool :=
  let whole := cs.takeWhile Decimal.isDigit
  let rest := cs.dropWhile Decimal.isDigit
  !whole.isEmpty && match rest with
    | [] => true
    | c :: digits => c == '.' && !digits.isEmpty && digits.all Decimal.isDigit

/-- Whether a text that is written as it stands reads as one literal. -/
def isBareWord (s : String) : Bool :=
  isName s.toList || isPlainNumeral s.toList

def isBarePunctuation (s : String) : Bool :=
  s == "." || s == "," || s == "!" || s == ":"

def stringChar : Char → List Char
  | '\\' => ['\\', '\\']
  | '"' => ['\\', '"']
  | '\n' => ['\\', 'n']
  | '\t' => ['\\', 't']
  | '\r' => ['\\', 'r']
  | c => [c]

def stringSource (s : String) : String :=
  String.ofList ('"' :: s.toList.flatMap stringChar ++ ['"'])

/-- A text as a literal, in running text or in an expression. -/
def literalSource (s : String) (inText : Bool) : String :=
  if isBareWord s || (inText && isBarePunctuation s) then s else stringSource s

end Text

namespace Value

/-- A value as a literal; only texts have a quoted form. -/
def literalSource (v : Value) (inText : Bool) : Except Fault String :=
  match v with
  | text s => .ok (Text.literalSource s inText)
  | v => v.display

end Value

/-! ### Nodes -/

namespace Node

def isBracketed : Node → Bool
  | assign _ _ _ => true
  | binary _ _ _ => true
  | conditional _ _ _ => true
  | group _ _ => true
  | _ => false

/-- Whether a node binds more loosely than an operand of an assignment or a condition. -/
def isLoose : Node → Bool
  | conditional _ _ _ => true
  | group _ _ => true
  | _ => false

/-- Whether a node binds more loosely than an operand of an operator. -/
def isLooseOperand : Node → Bool
  | assign _ _ _ => true
  | n => n.isLoose

def bracketIf (needed : Bool) (source : String) : String :=
  if needed then "[" ++ source ++ "]" else source

/-- A node as an element of running text, given its source text as an expression. -/
def elementSource (n : Node) (source : String) : Except Fault String :=
  match n with
  | literal v => v.literalSource true
  | n => .ok (bracketIf n.isBracketed source)

end Node

mutual

def Node.source : Node → Except Fault String
  | .literal v => v.literalSource false
  | .rule name => .ok ("$" ++ name)
  | .reference target => .ok target.dotted
  | .assign target op expression => do
    let e ← expression.source
    return target.dotted ++ " " ++ op.symbol ++ " " ++ Node.bracketIf expression.isLoose e
  | .binary left op right => do
    let l ← left.source
    let r ← right.source
    return "(" ++ Node.bracketIf left.isLooseOperand l ++ " " ++ op.symbol ++ " " ++
      Node.bracketIf right.isLooseOperand r ++ ")"
  | .conditional condition whenTrue whenFalse => do
    let c ← condition.source
    let t ← whenTrue.source
    let text := Node.bracketIf condition.isLoose c ++ " ? " ++
      Node.bracketIf (whenTrue.isConditional || whenTrue.isList) t
    if whenFalse.isMissing then return text
    let f ← whenFalse.source
    return text ++ " | " ++ Node.bracketIf whenFalse.isList f
  | .silent expression => do
    let e ← expression.source
    return "[!" ++ e ++ "]"
  | .group members true => do
    let parts ← proseSources members
    return " ".intercalate parts
  | .group members false => do
    let parts ← memberSources members
    return "; ".intercalate parts
  | .alternative a => a.source
  | .definition r => r.source
  | .missing => .error (.notRenderable Value.null.kind)

def Alternative.source : Alternative → Except Fault String
  | ⟨elements, weight⟩ => do
    let parts ← elementSources elements
    let text := " ".intercalate parts
    if weight.equal (.float 1) then return text
    return text ++ " ::" ++ (← weight.display)

def Rule.source : Rule → Except Fault String
  | ⟨_, alternatives⟩ => do
    let parts ← alternativeSources alternatives
    return " | ".intercalate parts

/-- The source texts of the elements of an alternative; a line break is written as it is. -/
def elementSources : List Node → Except Fault (List String)
  | [] => .ok []
  | n :: rest => do
    let part ← if n.isLineBreak then .ok "\n" else (do n.elementSource (← n.source))
    let parts ← elementSources rest
    return part :: parts

def proseSources : List Node → Except Fault (List String)
  | [] => .ok []
  | n :: rest => do
    let part ← n.elementSource (← n.source)
    let parts ← proseSources rest
    return part :: parts

def memberSources : List Node → Except Fault (List String)
  | [] => .ok []
  | n :: rest => do
    let part ← n.source
    let parts ← memberSources rest
    return Node.bracketIf n.isList part :: parts

def alternativeSources : List Alternative → Except Fault (List String)
  | [] => .ok []
  | a :: rest => do
    let part ← a.source
    let parts ← alternativeSources rest
    return part :: parts

end

/-! ### Calls -/

mutual

/-- The most calls that stand inside each other while a node is rendered. A part that may need
brackets is rendered by a call that sees to them. -/
def Node.sourceCalls : Node → Nat
  | .literal v => v.displayCalls + 2
  | .rule _ => 1
  | .reference _ => 2
  | .assign _ _ expression => expression.sourceCalls + 2
  | .binary left _ right => max left.sourceCalls right.sourceCalls + 2
  | .conditional condition whenTrue whenFalse =>
    let otherwise :=
      if whenFalse.isMissing then 0
      else whenFalse.sourceCalls + if whenFalse.isConditional then 1 else 2
    max (max condition.sourceCalls whenTrue.sourceCalls + 2) otherwise
  | .silent expression => expression.sourceCalls + 1
  | .group members true => mostSourceCalls members + 3
  | .group members false => mostSourceCalls members + 2
  | .alternative a => a.sourceCalls
  | .definition r => r.sourceCalls
  | .missing => 1

def Alternative.sourceCalls : Alternative → Nat
  | ⟨elements, weight⟩ => max (mostSourceCalls elements + 3) (weight.displayCalls + 1)

def Rule.sourceCalls : Rule → Nat
  | ⟨_, alternatives⟩ => alternativeSourceCalls alternatives + 2

def mostSourceCalls : List Node → Nat
  | [] => 0
  | n :: rest => max n.sourceCalls (mostSourceCalls rest)

def alternativeSourceCalls : List Alternative → Nat
  | [] => 0
  | a :: rest => max a.sourceCalls (alternativeSourceCalls rest)

end

/-! ### Grammars -/

namespace Grammar

/-- The most calls that stand inside each other while a grammar is rendered. -/
def sourceCalls (g : Grammar) : Nat :=
  (g.rules.map fun entry => entry.2.sourceCalls).foldl max 0 + 2

def source (g : Grammar) : Except Fault String := do
  let definitions ← g.rules.mapM fun entry => do
    return "$" ++ entry.1 ++ " := " ++ (← entry.2.source)
  return "\n".intercalate definitions

end Grammar

end ProseGrammar
