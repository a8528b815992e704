import ProseGrammar.Binary64

/-!
# The shortest decimal of a double

Every double is the nearest one to all the reals of an interval around it. Its shortest decimal is
the point of that interval on the coarsest grid `10 ^ k · ℕ` that has one; of two such points it is
the nearer. The search takes `k` downwards and tests the two neighbours of the double on each grid,
in exact natural arithmetic. The text of a double writes these digits.
-/

namespace ProseGrammar

/-- The number `coefficient · 10 ^ exponent`. -/
structure Decimal where
  coefficient : Nat
  exponent : Int
  deriving DecidableEq

namespace Decimal

/-! ### The search -/

/-- Factors `a` and `b` such that a point `c · 10 ^ k` compares with `x · 2 ^ e` as `c · a` does
with `x · b`. -/
def scales (k e : Int) : Nat × Nat :=
  (10 ^ k.toNat * 2 ^ (-e).toNat, 2 ^ e.toNat * 10 ^ (-k).toNat)

/-- The distance from the double `m · 2 ^ e` down to the end of its interval, in quarter units:
below a power of two the doubles stand twice as close. -/
def lowerGap (m : Nat) (e : Int) : Nat :=
  if m = 2 ^ 52 ∧ Binary64.leastExponent < e then 1 else 2

/-- Whether the point `c · 10 ^ k` rounds to `m · 2 ^ e`; the ends of the interval do so when `m` is
even. -/
def roundsTo (m : Nat) (e k : Int) (c : Nat) : Bool :=
  let (a, b) := scales k (e - 2)
  let low := (4 * m - lowerGap m e) * b
  let high := (4 * m + 2) * b
  if m % 2 = 0 then low ≤ c * a && c * a ≤ high else low < c * a && c * a < high

/-- The point of the grid `10 ^ k · ℕ` that rounds to `m · 2 ^ e`, the nearer of two. -/
def onGrid? (m : Nat) (e k : Int) : Option Nat :=
  let (a, b) := scales k (e - 2)
  let value := 4 * m * b
  let q := value / a
  match roundsTo m e k q, roundsTo m e k (q + 1) with
  | true, true =>
    let below := value - q * a
    let above := (q + 1) * a - value
    some (if below < above ∨ (below = above ∧ q % 2 = 0) then q else q + 1)
  | true, false => some q
  | false, true => some (q + 1)
  | false, false => none

/-- The first point found on the grids `10 ^ k`, `10 ^ (k - 1)`, …, at most `steps` of them before
the last. -/
def search (m : Nat) (e : Int) : (steps : Nat) → (k : Int) → Decimal
  | 0, k => ⟨(onGrid? m e k).getD 0, k⟩
  | steps + 1, k =>
    match onGrid? m e k with
    | some c => ⟨c, k⟩
    | none => search m e steps (k - 1)

/-- The shortest decimal that rounds to the double `m · 2 ^ e`. The first grid lies above the value,
and seventeen digits always suffice. -/
def shortest (m : Nat) (e : Int) : Decimal :=
  search m e 24 (((m.log2 : Int) + e + 1) * 30103 / 100000 + 1)

/-! ### Text -/

/-- A decimal in plain notation, with at least one digit on each side of the point; the point stands
after `point` of the digits. -/
def plainText (digits : List Char) (point : Int) : List Char :=
  if point ≤ 0 then '0' :: '.' :: (List.replicate (-point).toNat '0' ++ digits)
  else
    let before := digits.take point.toNat
    let after := digits.drop point.toNat
    before ++ List.replicate (point.toNat - before.length) '0' ++
      '.' :: (if after.isEmpty then ['0'] else after)

/-- A decimal in scientific notation, with at least two digits in the exponent. -/
def scientificText (digits : List Char) (exponent : Int) : List Char :=
  let mantissa := digits.take 1 ++ (if digits.length ≤ 1 then [] else '.' :: digits.drop 1)
  let power := Nat.toDigits 10 exponent.natAbs
  mantissa ++ 'e' :: (if exponent < 0 then '-' else '+') ::
    (List.replicate (2 - power.length) '0' ++ power)

/-- The text of a positive decimal: plain when its leading digit stands for `10 ^ (-4)` to
`10 ^ 15`, scientific otherwise. -/
def text (d : Decimal) : List Char :=
  let digits := Nat.toDigits 10 d.coefficient
  let point := (digits.length : Int) + d.exponent
  if -4 < point ∧ point ≤ 16 then plainText digits point else scientificText digits (point - 1)

/-- The text of a double: the fewest digits that read back as the same double. -/
def floatText (x : Float) : String :=
  match Binary64.ofFloat x with
  | .nan => "nan"
  | .infinity negative => if negative then "-inf" else "inf"
  | .finite negative m e =>
    let digits := if m = 0 then ['0', '.', '0'] else (shortest m e).text
    String.ofList (if negative then '-' :: digits else digits)

end Decimal

end ProseGrammar
