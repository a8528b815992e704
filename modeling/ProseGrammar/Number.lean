import ProseGrammar.Decimal.Numeral
import ProseGrammar.Decimal.Shortest

/-!
# Numbers

A number is an integer of any size or a double. Integers stay integers under addition, subtraction
and multiplication; an operation on an integer and a double first rounds the integer. Comparison
does not round: an integer and a double compare by their exact values.
-/

namespace ProseGrammar

/-- An integer or a double. -/
inductive Number
  | int (n : Int)
  | float (x : Float)
  deriving DecidableEq

namespace Number

/-! ### Conversion -/

def floatOfInt (n : Int) : Except Fault Float :=
  match Binary64.nearest? (decide (n < 0)) n.natAbs 1 with
  | some x => .ok x
  | none => .error .integerRange

def toFloat : Number → Except Fault Float
  | int n => floatOfInt n
  | float x => .ok x

def ofNumeral (n : Numeral) : Except Fault Number :=
  if n.isInteger then int <$> Numeral.integer n.negative n.whole
  else .ok (float n.toFloat)

/-! ### Arithmetic -/

def lift (onInts : Int → Int → Int) (onFloats : Float → Float → Float) :
    Number → Number → Except Fault Number
  | int a, int b => .ok (int (onInts a b))
  | a, b => do
    let x ← a.toFloat
    let y ← b.toFloat
    return float (onFloats x y)

def add : Number → Number → Except Fault Number :=
  lift (· + ·) (· + ·)

def sub : Number → Number → Except Fault Number :=
  lift (· - ·) (· - ·)

def mul : Number → Number → Except Fault Number :=
  lift (· * ·) (· * ·)

/-- The quotient of two numbers, the second of which is not zero; always a double. The quotient of
integers is rounded once, and its sign is the product of their signs also when it is zero. -/
def div : Number → Number → Except Fault Number
  | int a, int b =>
    match Binary64.nearest? (decide (a < 0) != decide (b < 0)) a.natAbs b.natAbs with
    | some x => .ok (float x)
    | none => .error .quotientRange
  | a, b => do
    let x ← a.toFloat
    let y ← b.toFloat
    return float (x / y)

def neg : Number → Number
  | int n => int (-n)
  | float x => float (-x)

/-! ### Comparison -/

/-- How two numbers compare by their exact values; a NaN compares with nothing. -/
def compare? : Number → Number → Option Ordering
  | int a, int b => some (compare a b)
  | int a, float y => ((Binary64.ofFloat y).compareInt a).map Ordering.swap
  | float x, int b => (Binary64.ofFloat x).compareInt b
  | float x, float y =>
    if x < y then some .lt
    else if y < x then some .gt
    else if x == y then some .eq
    else none

def equal (a b : Number) : Bool :=
  a.compare? b == some .eq

def atMost (a b : Number) : Bool :=
  match a.compare? b with
  | some order => order != .gt
  | none => false

def isZero (a : Number) : Bool :=
  a.equal (int 0)

/-! ### Text -/

/-- The text of a number as it appears in messages: an integer in all its digits, a double in the
fewest digits that read back. -/
def inspect : Number → Except Fault String
  | int n => Decimal.integerText n
  | float x => .ok (Decimal.floatText x)

/-- The text of a number as it appears in generated text: an integral double loses its point. -/
def display : Number → Except Fault String
  | int n => Decimal.integerText n
  | float x =>
    match Binary64.ofFloat x with
    | .nan => .ok "NaN"
    | .infinity negative => .ok (if negative then "-Infinity" else "Infinity")
    | exact =>
      match exact.toInt? with
      | some n => Decimal.integerText n
      | none => .ok (Decimal.floatText x)

end Number

end ProseGrammar
