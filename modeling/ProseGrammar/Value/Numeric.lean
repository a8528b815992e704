import ProseGrammar.Text.Blank
import ProseGrammar.Value

/-!
# Numeric values

Arithmetic and comparison treat a text that is a numeral, white space around it aside, like the
number it denotes. No other value than a number or such a text is numeric.
-/

namespace ProseGrammar.Value

/-! ### Conversion -/

def numberOfText? (s : String) : Except Fault (Option Number) :=
  match Numeral.ofChars? (Text.trimChars s.toList) with
  | some n => some <$> Number.ofNumeral n
  | none => .ok none

def toNumber? : Value → Except Fault (Option Number)
  | number n => .ok (some n)
  | text s => numberOfText? s
  | _ => .ok none

def coerce (v : Value) : Except Fault Value := do
  match ← v.toNumber? with
  | some n => return number n
  | none => return v

end ProseGrammar.Value
