/-!
# Doubles, exactly

A finite double is a sign and a natural number of units, each unit a power of two. This module
reads that form off the bits of a `Float` and, the other way, rounds a quotient of natural numbers
to the nearest double, a tie going to the even significand. Everything is integer arithmetic, so
order, integrality and rounding of doubles are facts about natural numbers.
-/

-- A power is the one of the core library, also where another instance is imported beside it.
attribute [instance (20000), default_instance (20000)] instPowNat

namespace ProseGrammar

/-- The exact value of a double; `finite negative m e` stands for `m · 2 ^ e` with its sign. -/
inductive Binary64
  | nan
  | infinity (negative : Bool)
  | finite (negative : Bool) (significand : Nat) (exponent : Int)
  deriving DecidableEq

namespace Binary64

/-! ### Reading the bits -/

/-- The exponent of the smallest unit, that of the subnormal doubles. -/
def leastExponent : Int := -1074

def ofFloat (x : Float) : Binary64 :=
  let bits := x.toBits.toNat
  let negative : Bool := 2 ^ 63 ≤ bits
  let field : Nat := bits / 2 ^ 52 % 2 ^ 11
  let fraction := bits % 2 ^ 52
  if field = 2047 then
    if fraction = 0 then infinity negative else nan
  else if field = 0 then finite negative fraction leastExponent
  else finite negative (2 ^ 52 + fraction) ((field : Int) - 1075)

def isFinite : Binary64 → Bool
  | finite _ _ _ => true
  | _ => false

def signed (negative : Bool) (m : Nat) : Int :=
  if negative then -m else m

def toInt? : Binary64 → Option Int
  | finite negative m e =>
    if 0 ≤ e then some (signed negative (m * 2 ^ e.toNat))
    else if m % 2 ^ (-e).toNat = 0 then some (signed negative (m / 2 ^ (-e).toNat))
    else none
  | _ => none

def floor? : Binary64 → Option Int
  | finite negative m e =>
    if 0 ≤ e then some (signed negative (m * 2 ^ e.toNat))
    else some (signed negative m / 2 ^ (-e).toNat)
  | _ => none

/-- How a double compares with an integer, both taken exactly; a NaN compares with nothing. -/
def compareInt : Binary64 → Int → Option Ordering
  | nan, _ => none
  | infinity negative, _ => some (if negative then .lt else .gt)
  | finite negative m e, n =>
    if 0 ≤ e then some (compare (signed negative (m * 2 ^ e.toNat)) n)
    else some (compare (signed negative m) (n * 2 ^ (-e).toNat))

/-! ### Rounding a quotient -/

/-- The numerator and denominator of `num / den` counted in units of `2 ^ e`. -/
def inUnits (num den : Nat) (e : Int) : Nat × Nat :=
  if 0 ≤ e then (num, den * 2 ^ e.toNat) else (num * 2 ^ (-e).toNat, den)

/-- The natural number nearest to `num / den`, the even one of two. -/
def roundQuotient (num den : Nat) : Nat :=
  let q := num / den
  let r := num % den
  if 2 * r < den then q
  else if den < 2 * r then q + 1
  else q + q % 2

/-- The bits of positive infinity, one past those of the greatest finite double. -/
def infinityBits : Nat := 2047 * 2 ^ 52

/-- The exponent of the unit in which `num / den` has 53 binary digits, or fewer with the smallest
unit. -/
def unitExponent (num den : Nat) : Int :=
  let low := max ((num.log2 : Int) - den.log2 - 53) leastExponent
  let (n, d) := inUnits num den low
  if 2 ^ 53 ≤ n / d then low + 1 else low

/-- The bits of the double nearest to `num / den`, at most those of infinity. A significand of 53
digits carries its leading one into the exponent field, so does one that rounds up to `2 ^ 53`. -/
def nearestBits (num den : Nat) : Nat :=
  if num = 0 then 0
  else
    let e := unitExponent num den
    let (n, d) := inUnits num den e
    min ((e - leastExponent).toNat * 2 ^ 52 + roundQuotient n d) infinityBits

/-- The double nearest to `num / den` with a sign, infinite when the quotient is out of range. -/
def nearest (negative : Bool) (num den : Nat) : Float :=
  let x := Float.ofBits (nearestBits num den).toUInt64
  if negative then -x else x

def nearest? (negative : Bool) (num den : Nat) : Option Float :=
  if nearestBits num den = infinityBits then none else some (nearest negative num den)

end Binary64

end ProseGrammar
