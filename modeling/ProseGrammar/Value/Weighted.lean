import ProseGrammar.Value.Display

/-!
# Weighted values

A weighted value has a positive, finite weight. In a list it stands beside plain values, which
count as having weight one.
-/

namespace ProseGrammar.Value

/-! ### Making one -/

/-- A value with a weight, which must be a positive finite number. -/
def withWeight (value weight : Value) : Except Fault Value := do
  let refuse : Except Fault Value := do throw (.badWeight (← weight.inspect))
  match weight with
  | number n =>
    let x ← n.toFloat
    if 0 < x && (Binary64.ofFloat x).isFinite then return weighted value x else refuse
  | _ => refuse

/-! ### Taking it apart -/

/-- One candidate of a list. -/
structure Choice where
  value : Value
  weight : Float
  isWeighted : Bool

def choice : Value → Choice
  | weighted value weight => ⟨value, weight, true⟩
  | value => ⟨value, 1, false⟩

end ProseGrammar.Value
