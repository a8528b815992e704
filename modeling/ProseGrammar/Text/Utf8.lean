/-!
# UTF-8

Files hold bytes, and a text is read from them as UTF-8. A character is a first byte, which says
how many continuation bytes it owes and which range the next of them must be in, and these bytes.
Reading stops at the first byte that no character can continue with.
-/

namespace ProseGrammar.Text

/-! ### Failures -/

/-- Why a sequence of bytes is not UTF-8. -/
inductive Utf8Cause
  | invalidStart
  | invalidContinuation
  | unexpectedEnd
  deriving DecidableEq

/-- Where reading stopped: `taken` bytes of a character from `position` on, the first of them
`first`. -/
structure Utf8Fault where
  cause : Utf8Cause
  position : Nat
  taken : Nat
  first : UInt8
  deriving DecidableEq

/-! ### Reading -/

/-- A character of which some bytes have been read: it still owes `owed` of them, and the next one
is between `low` and `high`. -/
structure Utf8Pending where
  position : Nat
  taken : Nat
  first : UInt8
  code : Nat
  owed : Nat
  low : UInt8
  high : UInt8

def Utf8Pending.fault (p : Utf8Pending) (cause : Utf8Cause) : Utf8Fault :=
  ⟨cause, p.position, p.taken, p.first⟩

/-- What the first byte of a character of several bytes promises; no character starts with a
continuation byte or with `C0`, `C1` or `F5` to `FF`. -/
def Utf8Pending.start? (position : Nat) (b : UInt8) : Option Utf8Pending :=
  let code := b.toNat
  let pending := fun owed offset low high => some ⟨position, 1, b, code - offset, owed, low, high⟩
  if b < 0xC2 then none
  else if b < 0xE0 then pending 1 0xC0 0x80 0xBF
  else if b == 0xE0 then pending 2 0xE0 0xA0 0xBF
  else if b == 0xED then pending 2 0xE0 0x80 0x9F
  else if b < 0xF0 then pending 2 0xE0 0x80 0xBF
  else if b == 0xF0 then pending 3 0xF0 0x90 0xBF
  else if b < 0xF4 then pending 3 0xF0 0x80 0xBF
  else if b == 0xF4 then pending 3 0xF0 0x80 0x8F
  else none

/-- The characters of the bytes from `position` on, the first of which may continue a character. -/
def utf8From (position : Nat) : Option Utf8Pending → List UInt8 → Except Utf8Fault (List Char)
  | none, [] => .ok []
  | some p, [] => .error (p.fault .unexpectedEnd)
  | none, b :: bytes =>
    if b < 0x80 then (Char.ofNat b.toNat :: ·) <$> utf8From (position + 1) none bytes
    else
      match Utf8Pending.start? position b with
      | some p => utf8From (position + 1) (some p) bytes
      | none => .error ⟨.invalidStart, position, 1, b⟩
  | some p, b :: bytes =>
    if p.low ≤ b && b ≤ p.high then
      let code := p.code * 64 + (b.toNat - 0x80)
      if p.owed = 1 then (Char.ofNat code :: ·) <$> utf8From (position + 1) none bytes
      else
        utf8From (position + 1)
          (some { p with taken := p.taken + 1, code, owed := p.owed - 1, low := 0x80, high := 0xBF })
          bytes
    else .error (p.fault .invalidContinuation)

def ofUtf8 (bytes : List UInt8) : Except Utf8Fault (List Char) :=
  utf8From 0 none bytes

end ProseGrammar.Text
