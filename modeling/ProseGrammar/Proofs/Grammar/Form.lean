import ProseGrammar.Grammar.Read
import ProseGrammar.Grammar.Source

/-!
# What grammar text can hold

Not every tree is what some text reads as. A tree fits its place if the syntax has a text for it,
whatever its literals are; its literals are plain if each is written as a token that reads as the
same literal in that place. A tree that fits and is plain reads back from its source text, but for
the difference between a name of a rule and a name of a variable, which lies in the place where the
name stands, and for numbers in running text, which read as texts.
-/

namespace ProseGrammar

/-! ### Places -/

/-- Where a node stands: as an operand of an operator, as any other expression, or as the first or
the second branch of a conditional. -/
inductive Place
  | operand
  | expression
  | branch
  | otherwise
  deriving DecidableEq

namespace Place

/-- Whether running text may stand in a place of an expression. -/
def holdsProse : Place → Bool
  | branch => true
  | otherwise => true
  | _ => false

end Place

/-! ### Form -/

def AssignOp.isKnown : AssignOp → Bool
  | other _ => false
  | _ => true

def BinaryOp.isKnown : BinaryOp → Bool
  | other _ => false
  | _ => true

def Reference.isPath (r : Reference) : Bool :=
  !r.path.isEmpty && r.path.all fun segment => Text.isName segment.toList

/-- Whether a reference is the name of a variable alone. -/
def Reference.isSingle (r : Reference) : Bool :=
  !r.isKnowledge && r.path.length == 1

def Value.isLiteral : Value → Bool
  | text _ => true
  | number _ => true
  | _ => false

mutual

/-- Whether the syntax has a text for a node in a place. -/
def Node.fits : Place → Node → Bool
  | _, .literal v => v.isLiteral
  | _, .rule name => Text.isName name.toList
  | _, .reference target => target.isPath
  | _, .assign target op expression =>
    target.isPath && op.isKnown && expression.fits .expression
  | _, .binary left op right => left.fits .operand && op.isKnown && right.fits .operand
  | _, .conditional condition whenTrue whenFalse =>
    condition.fits .expression && whenTrue.fits .branch && whenFalse.fits .otherwise
  | _, .silent expression => expression.fits .expression
  | place, .group members prose =>
    (!prose || place.holdsProse) && 2 ≤ members.length && fitAll members
  | _, .alternative _ => false
  | _, .definition _ => false
  | place, .missing => place = .otherwise

def fitAll : List Node → Bool
  | [] => true
  | n :: rest => n.fits .expression && fitAll rest

end

theorem fits_of_mem (members : List Node) (h : fitAll members = true) :
    ∀ n ∈ members, n.fits .expression = true := by
  induction members with
  | nil => exact fun n hn => nomatch hn
  | cons m rest ih =>
    simp only [fitAll, Bool.and_eq_true] at h
    intro n hn
    rcases List.mem_cons.mp hn with rfl | hn
    · exact h.1
    · exact ih h.2 n hn

/-- Whether an alternative has elements, none of which is a line break at an end, and a positive
weight. -/
def Alternative.fits (a : Alternative) : Bool :=
  fitAll a.elements && !a.elements.isEmpty &&
    a.elements.head?.all (fun n => !n.isLineBreak) &&
    a.elements.getLast?.all (fun n => !n.isLineBreak) &&
    match a.weight with
    | .number (.float w) => !decide (w ≤ 0)
    | _ => false

def Rule.fits (r : Rule) : Bool :=
  !r.alternatives.isEmpty && r.alternatives.all Alternative.fits

/-- Whether a grammar has rules, all of which fit and stand under their own names. -/
def Grammar.fits (g : Grammar) : Bool :=
  !g.rules.isEmpty && decide g.rules.keys.Nodup && g.rules.all fun entry =>
    Text.isName entry.1.toList && entry.2.name == entry.1 && entry.2.fits

/-! ### Alternatives in the reader -/

namespace Parser

def finishAlternative (elements : List Node) (weight : Float) : Parser Alternative :=
  if (trimBreaks elements).isEmpty then fail .emptyAlternative
  else return ⟨trimBreaks elements, .float weight⟩

theorem alternative_eq (inner : Inner) :
    alternative inner = repeatWhile atElement (element inner) >>= fun elements =>
      accept .doubleColon >>= fun weighted =>
        if weighted then weight >>= finishAlternative elements
        else pure 1 >>= finishAlternative elements := rfl

end Parser

/-! ### Literals -/

/-- The number that a text reads as in an expression, if it is a numeral. -/
def Number.ofPlainNumeral? (cs : List Char) : Option Number :=
  if Text.isPlainNumeral cs then
    match Value.numberOfText? (String.ofList cs) with
    | .ok number => number
    | .error _ => none
  else none

/-- The number that a text reads as in an expression, if it is a numeral that may be negated. -/
def Number.ofSource? : List Char → Option Number
  | '-' :: digits => (ofPlainNumeral? digits).map neg
  | digits => ofPlainNumeral? digits

/-- Whether a value reads back from its text in an expression: a number as the same number, a text
not as a number. -/
def Value.readsBack : Value → Bool
  | text s => !Text.isPlainNumeral s.toList
  | number n =>
    match n.display with
    | .ok s => Number.ofSource? s.toList = some n
    | .error _ => false
  | _ => false

/-- Whether a node is a number that is written with a minus sign. -/
def Node.hasSign : Node → Bool
  | .literal (.number n) =>
    match n.display with
    | .ok s => s.toList.head? = some '-'
    | .error _ => false
  | _ => false

def Node.isPunctuation : Node → Bool
  | .literal (.text s) => Text.isBarePunctuation s
  | _ => false

/-- Whether no number with a sign stands where the sign would be taken for an operator, that is
behind a part of running text that is no punctuation. -/
def signsApart : (fresh : Bool) → List Node → Bool
  | _, [] => true
  | fresh, n :: rest => (fresh || !n.hasSign) && signsApart n.isPunctuation rest

mutual

/-- Whether all literals in a node read back in the place of an expression. -/
def Node.plain : Node → Bool
  | .literal v => v.readsBack
  | .assign _ _ expression => expression.plain
  | .binary left _ right => left.plain && right.plain
  | .conditional condition whenTrue whenFalse =>
    condition.plain && whenTrue.plain && whenFalse.plain
  | .silent expression => expression.plain
  | .group members prose => plainAll members && (!prose || signsApart true members)
  | _ => true

def plainAll : List Node → Bool
  | [] => true
  | n :: rest => n.plain && plainAll rest

end

/-- Whether all literals in an element read back: a text always does, a number if its text is one
word. -/
def Node.plainElement : Node → Bool
  | .literal (.number n) =>
    match n.display with
    | .ok s => Text.isBareWord s
    | .error _ => false
  | .literal _ => true
  | n => n.plain

/-- Whether a weight is not written, or is written as a numeral of the same double. -/
def Value.weightReadsBack : Value → Bool
  | .number (.float w) =>
    (Value.float w).equal (.float 1) ||
      match (Number.float w).display with
      | .ok s => Text.isPlainNumeral s.toList &&
        (Numeral.ofChars? s.toList).map Numeral.toFloat = some w
      | .error _ => false
  | _ => false

def Alternative.plain (a : Alternative) : Bool :=
  a.elements.all Node.plainElement && a.weight.weightReadsBack

/-- Whether all literals and weights of a grammar read back. -/
def Grammar.plain (g : Grammar) : Bool :=
  g.rules.all fun entry => entry.2.alternatives.all Alternative.plain

/-! ### Nesting -/

mutual

/-- The levels of nesting that the source text of a node may take to be read. -/
def Node.levels : Node → Nat
  | .assign _ _ expression => expression.levels + 2
  | .binary left _ right => max left.levels right.levels + 2
  | .conditional condition whenTrue whenFalse =>
    max condition.levels (max whenTrue.levels whenFalse.levels) + 1
  | .silent expression => expression.levels + 1
  | .group members prose => if prose then mostLevels members else mostLevels members + 1
  | _ => 1

/-- The most levels of nesting that the source text of any node of a list may take. -/
def mostLevels : List Node → Nat
  | [] => 0
  | n :: rest => max n.levels (mostLevels rest)

end

def Rule.levels (r : Rule) : Nat :=
  r.alternatives.foldr (fun a most => max (mostLevels a.elements) most) 0

def Grammar.levels (g : Grammar) : Nat :=
  g.rules.foldr (fun entry most => max entry.2.levels most) 0

theorem le_foldr_max {α : Type} (size : α → Nat) (xs : List α) (x : α) (h : x ∈ xs) :
    size x ≤ xs.foldr (fun y most => max (size y) most) 0 := by
  induction xs with
  | nil => cases h
  | cons y xs ih =>
    rw [List.foldr_cons]
    rcases List.mem_cons.mp h with rfl | h
    · exact Nat.le_max_left _ _
    · exact Nat.le_trans (ih h) (Nat.le_max_right _ _)

/-! ### What text reads back as -/

mutual

/-- What the source text of a node reads back as: a lone name is a variable if it is an operand and
a rule otherwise. -/
def Node.reread : Place → Node → Node
  | place, .rule name => if place = .operand then .reference ⟨[name], false⟩ else .rule name
  | place, .reference target =>
    if target.isSingle && place ≠ .operand then .rule (target.path.headD "")
    else .reference target
  | _, .assign target op expression => .assign target op (expression.reread .expression)
  | _, .binary left op right => .binary (left.reread .operand) op (right.reread .operand)
  | _, .conditional condition whenTrue whenFalse =>
    .conditional (condition.reread .expression) (whenTrue.reread .branch)
      (whenFalse.reread .otherwise)
  | _, .silent expression => .silent (expression.reread .expression)
  | _, .group members prose => .group (rereadAll members) prose
  | _, .literal v => .literal v
  | _, .alternative a => .alternative a
  | _, .definition r => .definition r
  | _, .missing => .missing

def rereadAll : List Node → List Node
  | [] => []
  | n :: rest => n.reread .expression :: rereadAll rest

end

/-- What the source text of an element reads back as: a number is a text. -/
def Node.rereadElement : Node → Node
  | .literal (.number n) =>
    match n.display with
    | .ok s => .literal (.text s)
    | .error _ => .literal (.number n)
  | n => n.reread .expression

def Alternative.reread (a : Alternative) : Alternative :=
  ⟨a.elements.map Node.rereadElement, a.weight⟩

def Rule.reread (r : Rule) : Rule :=
  ⟨r.name, r.alternatives.map Alternative.reread⟩

def Grammar.reread (g : Grammar) : Grammar :=
  ⟨g.rules.map fun entry => (entry.1, entry.2.reread)⟩

end ProseGrammar
