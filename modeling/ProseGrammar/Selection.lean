import ProseGrammar.Binary64
import ProseGrammar.Value

/-!
# Random selection

A draw selects one of several items. With weights it selects the first item at which the running
total of the weights reaches the draw's share of their sum; without weights it selects by the
integral part of the draw's share of their number. Both are stated for any kind of numbers, and
selection by weight also for weights that may turn out not to be numbers.
-/

namespace ProseGrammar.Selection

/-! ### Arithmetic -/

/-- What a selection by weight computes with: totals `α` of weights `β`, in steps that can fail as
`m` says. -/
structure Arithmetic (m : Type → Type) (α β : Type) where
  /-- The sum of no weights. -/
  zero : α
  /-- The running total before the first weight. -/
  start : α
  add : α → β → m α
  mul : α → α → m α
  atMost : α → α → Bool

namespace Arithmetic

/-- The arithmetic of numbers whose operations cannot fail. -/
def total {α : Type} [Add α] [Mul α] [LE α] [DecidableLE α] [OfNat α 0] : Arithmetic Id α α :=
  ⟨0, 0, fun a b => a + b, fun a b => a * b, fun a b => decide (a ≤ b)⟩

/-- A sum with a weight, which must be a number or a truth value. -/
def addWeight (total : Number) (weight : Value) : Except Fault Number :=
  match weight.asNumber? with
  | some n => total.add n
  | none => .error (.unsupportedOperands "+" (Value.number total).kind weight.kind)

/-- The arithmetic of weights that are any values: integers are summed exactly, and the running
total is a double. -/
def values : Arithmetic (Except Fault) Number Value :=
  ⟨.int 0, .float 0, addWeight, Number.mul, Number.atMost⟩

end Arithmetic

/-! ### By weight -/

variable {m : Type → Type} [Monad m] {α β : Type}

/-- The sum of weights, added from the left. -/
def sum (a : Arithmetic m α β) (weights : List β) : m α :=
  weights.foldlM a.add a.zero

/-- The position of the first weight at which the running total, `before` at the start, reaches a
target; the number of weights if there is none. -/
def reach (a : Arithmetic m α β) (target : α) : (before : α) → List β → m Nat
  | _, [] => pure 0
  | before, w :: rest => do
    let total ← a.add before w
    if a.atMost target total then return 0
    return (← reach a target total rest) + 1

/-- The position that a draw selects; the last one if rounding has left the target above the sum. -/
def weightedIndex (a : Arithmetic m α β) (weights : List β) (draw : α) : m Nat := do
  let target ← a.mul draw (← sum a weights)
  let index ← reach a target a.start weights
  return min index (weights.length - 1)

/-! ### By count -/

/-- The position that an integer denotes among `count` items: at most the last one, and counted from
the end if it is negative. -/
def position (count : Nat) (i : Int) : Except Fault Nat :=
  if (count : Int) ≤ i then .ok (count - 1)
  else if 0 ≤ i then .ok i.toNat
  else if -(count : Int) ≤ i then .ok (count + i).toNat
  else .error .indexRange

/-- The position that a draw selects among `count` items, a number that may be out of range. -/
def uniformIndex [Mul α] (floor : α → Except Fault Int) (ofNat : Nat → Except Fault α)
    (count : Nat) (draw : α) : Except Fault Nat := do
  position count (← floor (draw * (← ofNat count)))

def floorFloat (x : Float) : Except Fault Int :=
  match Binary64.ofFloat x with
  | .nan => .error .floorOfNaN
  | .infinity _ => .error .floorOfInfinity
  | exact => .ok (exact.floor?.getD 0)

end ProseGrammar.Selection
