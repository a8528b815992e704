import ProseGrammar.Value

/-!
# Grammars

A grammar is a table of rules. A rule offers alternatives with weights, and an alternative is a
list of elements that are evaluated in order and joined to running text. Elements are expressions:
literals, references, assignments, operators, conditionals and groups. Grammars that are made by
hand may also nest alternatives and rules in expressions, leave expressions out, and give weights
that are no positive numbers.
-/

namespace ProseGrammar

/-! ### Operators -/

/-- The ways to assign; `other` is an operator that has no meaning. -/
inductive AssignOp
  | set | add | subtract
  | other (symbol : String)
  deriving DecidableEq

namespace AssignOp

def symbol : AssignOp → String
  | set => "="
  | add => "+="
  | subtract => "-="
  | other s => s

def ofSymbol (s : String) : AssignOp :=
  if s = "=" then set
  else if s = "+=" then add
  else if s = "-=" then subtract
  else other s

end AssignOp

/-- The operators on two values; `other` is an operator that has no meaning. -/
inductive BinaryOp
  | add | subtract | multiply | divide
  | equal | notEqual | less | greater | lessEqual | greaterEqual
  | other (symbol : String)
  deriving DecidableEq

namespace BinaryOp

def symbol : BinaryOp → String
  | add => "+"
  | subtract => "-"
  | multiply => "*"
  | divide => "/"
  | equal => "=="
  | notEqual => "!="
  | less => "<"
  | greater => ">"
  | lessEqual => "<="
  | greaterEqual => ">="
  | other s => s

def ofSymbol (s : String) : BinaryOp :=
  let known := [add, subtract, multiply, divide, equal, notEqual, less, greater, lessEqual,
    greaterEqual]
  (known.find? fun op => op.symbol = s).getD (other s)

end BinaryOp

/-! ### References -/

/-- A path to a value: into knowledge, or into a variable, whose name is then the first segment. -/
structure Reference where
  path : List String
  isKnowledge : Bool
  deriving DecidableEq

namespace Reference

def dotted (r : Reference) : String :=
  (if r.isKnowledge then "$$." else "$") ++ ".".intercalate r.path

end Reference

/-! ### Expressions and productions -/

mutual

/-- An expression, or an alternative or a rule that stands in the place of one. In a conditional
`missing` stands for no second branch; anywhere else it cannot be evaluated. A group lists
expressions: those of a prose group are the parts of running text, the last one of any other group
is its value. -/
inductive Node
  | literal (value : Value)
  | rule (name : String)
  | reference (target : Reference)
  | assign (target : Reference) (op : AssignOp) (expression : Node)
  | binary (left : Node) (op : BinaryOp) (right : Node)
  | conditional (condition whenTrue whenFalse : Node)
  | silent (expression : Node)
  | group (members : List Node) (prose : Bool)
  | alternative (a : Alternative)
  | definition (r : Rule)
  | missing

/-- One way to expand a rule. Weights are positive numbers where the reader makes them. -/
structure Alternative where
  elements : List Node
  weight : Value

/-- A named rule. -/
structure Rule where
  name : String
  alternatives : List Alternative

end

namespace Node

def lineBreak : Node :=
  literal (.text "\n")

def isLineBreak : Node → Bool
  | literal (.text s) => s == "\n"
  | _ => false

def isMissing : Node → Bool
  | missing => true
  | _ => false

def isConditional : Node → Bool
  | conditional _ _ _ => true
  | _ => false

/-- Whether a node is a group of expressions of which the last one counts. -/
def isList : Node → Bool
  | group _ prose => !prose
  | _ => false

end Node

/-! ### Equality -/

mutual

/-- Whether two nodes are the same, literals by the equality of values. -/
def Node.equal : Node → Node → Bool
  | .literal a, .literal b => a.equal b
  | .rule a, .rule b => a == b
  | .reference a, .reference b => a == b
  | .assign s p a, .assign t q b => s == t && p == q && a.equal b
  | .binary a p b, .binary c q d => a.equal c && p == q && b.equal d
  | .conditional a b c, .conditional d e f => a.equal d && b.equal e && c.equal f
  | .silent a, .silent b => a.equal b
  | .group as p, .group bs q => equalNodes as bs && p == q
  | .alternative a, .alternative b => a.equal b
  | .definition r, .definition s => r.equal s
  | .missing, .missing => true
  | _, _ => false

def Alternative.equal : Alternative → Alternative → Bool
  | ⟨as, v⟩, ⟨bs, w⟩ => equalNodes as bs && v.equal w

def Rule.equal : Rule → Rule → Bool
  | ⟨m, as⟩, ⟨n, bs⟩ => m == n && equalAlternatives as bs

def equalNodes : List Node → List Node → Bool
  | [], [] => true
  | a :: as, b :: bs => a.equal b && equalNodes as bs
  | _, _ => false

def equalAlternatives : List Alternative → List Alternative → Bool
  | [], [] => true
  | a :: as, b :: bs => a.equal b && equalAlternatives as bs
  | _, _ => false

end

/-! ### Tables of rules -/

/-- A table of rules, each under the name by which it is referred to. -/
structure Grammar where
  rules : Table Rule

namespace Grammar

def rule? (g : Grammar) (name : String) : Option Rule :=
  g.rules.get? name

/-- The grammar of a list of rules; a rule that is defined again keeps its place. -/
def ofRules (rules : List Rule) : Grammar :=
  ⟨Table.ofEntries (rules.map fun rule => (rule.name, rule))⟩

/-- Whether two grammars have the same rules, in any order. -/
def equal (g h : Grammar) : Bool :=
  g.rules.length == h.rules.length && g.rules.all fun entry =>
    match h.rule? entry.1 with
    | some rule => entry.2.equal rule
    | none => false

end Grammar

end ProseGrammar
