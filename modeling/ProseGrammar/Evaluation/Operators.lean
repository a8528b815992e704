import ProseGrammar.Grammar
import ProseGrammar.Text.Blank
import ProseGrammar.Value.Display
import ProseGrammar.Value.Numeric

/-!
# Operators on values

An operator first trims operands that are texts. If both operands are numeric it works on numbers.
Otherwise a sum joins the displayed operands, a comparison compares their displayed texts by code
point, and the remaining operators fail.
-/

namespace ProseGrammar

namespace Value

def trimmed : Value → Value
  | text s => text (Text.trim s)
  | v => v

end Value

namespace BinaryOp

/-! ### Families -/

/-- What a comparison answers for the order of its operands; operands without an order are not
equal and not in any order. -/
def holds? (op : BinaryOp) (order : Option Ordering) : Option Bool :=
  match op with
  | equal => some (order == some .eq)
  | notEqual => some (order != some .eq)
  | less => some (order == some .lt)
  | greater => some (order == some .gt)
  | lessEqual => some (order == some .lt || order == some .eq)
  | greaterEqual => some (order == some .gt || order == some .eq)
  | _ => none

/-- The operation on two numbers of an arithmetic operator; a sum is told apart. -/
def arithmetic? (op : BinaryOp) : Option (Number → Number → Except Fault Number) :=
  match op with
  | subtract => some Number.sub
  | multiply => some Number.mul
  | divide => some fun a b =>
    if b.isZero then .error (.evaluation .divisionByZero none) else a.div b
  | _ => none

/-! ### Application -/

def onNumbers (op : BinaryOp) (a b : Number) : Except Fault Value :=
  match op, op.arithmetic?, op.holds? (a.compare? b) with
  | add, _, _ => .number <$> a.add b
  | _, some operation, _ => .number <$> operation a b
  | _, _, some answer => .ok (.bool answer)
  | _, _, _ => .error (.evaluation (.unknownOperator op.symbol) none)

/-- Applies an operator to values of which at least one is not numeric. -/
def onTexts (op : BinaryOp) (left right : Value) : Except Fault Value := do
  let l ← left.display
  let r ← right.display
  match op, op.arithmetic?, op.holds? (some (compare l r)) with
  | add, _, _ => return .text (l ++ r)
  | _, some _, _ => throw (.evaluation (.needsNumbers op.symbol l r) none)
  | _, _, some answer => return .bool answer
  | _, _, _ => throw (.evaluation (.unknownOperator op.symbol) none)

def apply (op : BinaryOp) (left right : Value) : Except Fault Value := do
  let a ← left.trimmed.toNumber?
  let b ← right.trimmed.toNumber?
  match a, b with
  | some a, some b => op.onNumbers a b
  | _, _ => op.onTexts left.trimmed right.trimmed

end BinaryOp

end ProseGrammar
