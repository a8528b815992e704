import ProseGrammar.Binary64
import ProseGrammar.Fault

/-!
# Numerals

A numeral is an optional sign, digits with an optional point, and an optional power of ten. Without
a point and a power it denotes an integer, otherwise the double nearest to its value. Decimal text
of integers, read or written, is limited to 4300 digits.
-/

namespace ProseGrammar

/-! ### Digits -/

namespace Decimal

/-- Whether a character is one of the ten ASCII digits. -/
def isDigit (c : Char) : Bool :=
  '0' ≤ c && c ≤ '9'

/-- The number that a list of digits denotes, the most significant digit first. -/
def ofDigits (digits : List Char) : Nat :=
  digits.foldl (fun n c => 10 * n + (c.toNat - '0'.toNat)) 0

def digitLimit : Nat := 4300

/-- The least number whose decimal text is too long. -/
def digitBound : Nat := 10 ^ digitLimit

def integerText (n : Int) : Except Fault String :=
  if n.natAbs < digitBound then
    let digits := Nat.toDigits 10 n.natAbs
    .ok (String.ofList (if n < 0 then '-' :: digits else digits))
  else .error (.integerText none)

/-- The double nearest to `coefficient · 10 ^ exponent` with a sign. Exponents that leave every
double far behind, or every double far above, are settled without the power. -/
def toFloat (negative : Bool) (coefficient : Nat) (exponent : Int) : Float :=
  if coefficient = 0 ∨ exponent < -(400 + coefficient.log2) then Binary64.nearest negative 0 1
  else if 400 < exponent then Binary64.nearest negative (2 ^ 1024) 1
  else Binary64.nearest negative (coefficient * 10 ^ exponent.toNat) (10 ^ (-exponent).toNat)

end Decimal

/-! ### The form of a numeral -/

/-- A numeral in its parts; `fraction` is present if there is a point. -/
structure Numeral where
  negative : Bool
  whole : List Char
  fraction : Option (List Char)
  power : Option Int
  deriving DecidableEq

namespace Numeral

/-- Splits off a sign; true stands for minus. -/
def sign : List Char → Bool × List Char
  | '-' :: rest => (true, rest)
  | '+' :: rest => (false, rest)
  | cs => (false, cs)

def digits (cs : List Char) : List Char × List Char :=
  (cs.takeWhile Decimal.isDigit, cs.dropWhile Decimal.isDigit)

def pointed : List Char → Option (List Char) × List Char
  | '.' :: rest => (some (digits rest).1, (digits rest).2)
  | cs => (none, cs)

def power? : List Char → Option (Option Int)
  | [] => some none
  | e :: rest =>
    let (negative, rest) := sign rest
    let (ds, rest) := digits rest
    if (e == 'e' || e == 'E') && !ds.isEmpty && rest.isEmpty then
      some (some (Binary64.signed negative (Decimal.ofDigits ds)))
    else none

def ofChars? (cs : List Char) : Option Numeral :=
  let (negative, rest) := sign cs
  let (whole, rest) := digits rest
  let (fraction, rest) := pointed rest
  match power? rest with
  | some power =>
    if whole.isEmpty && (fraction.getD []).isEmpty then none
    else some { negative, whole, fraction, power }
  | none => none

def isInteger (n : Numeral) : Bool :=
  n.fraction.isNone && n.power.isNone

/-! ### Its value -/

def integer (negative : Bool) (digits : List Char) : Except Fault Int :=
  if digits.length ≤ Decimal.digitLimit then
    .ok (Binary64.signed negative (Decimal.ofDigits digits))
  else .error (.integerText (some digits.length))

def toFloat (n : Numeral) : Float :=
  let fraction := n.fraction.getD []
  Decimal.toFloat n.negative (Decimal.ofDigits (n.whole ++ fraction))
    (n.power.getD 0 - fraction.length)

end Numeral

end ProseGrammar
