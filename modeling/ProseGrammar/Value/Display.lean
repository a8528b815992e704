import ProseGrammar.Value

/-!
# Values as text

A value is displayed when it enters generated text and inspected when a message or another value's
text names it. Inspection is unambiguous: texts are quoted, and the parts of lists and objects are
inspected in turn. Both fail on an integer with too many digits.
-/

namespace ProseGrammar.Value

/-! ### Inspection -/

mutual

def inspect : Value → Except Fault String
  | null => .ok "None"
  | bool b => .ok (if b then "True" else "False")
  | number n => n.inspect
  | text s => .ok (Text.quoted s)
  | list items => do
    let parts ← inspectItems items
    return "[" ++ ", ".intercalate parts ++ "]"
  | object entries => do
    let parts ← inspectEntries entries
    return "\x7b" ++ ", ".intercalate parts ++ "\x7d"
  | weighted value weight => do
    let shown ← inspect value
    return "WeightedItem(" ++ shown ++ ", " ++ Decimal.floatText weight ++ ")"

def inspectItems : List Value → Except Fault (List String)
  | [] => .ok []
  | item :: rest => do
    let shown ← inspect item
    let others ← inspectItems rest
    return shown :: others

def inspectEntries : List (String × Value) → Except Fault (List String)
  | [] => .ok []
  | (key, value) :: rest => do
    let shown ← inspect value
    let others ← inspectEntries rest
    return (Text.quoted key ++ ": " ++ shown) :: others

end

/-! ### Display -/

mutual

/-- The text of a value in generated text: nothing for null, the items of a list between commas, the
value inside a weighted value. -/
def display : Value → Except Fault String
  | null => .ok ""
  | bool b => .ok (if b then "true" else "false")
  | number n => n.display
  | text s => .ok s
  | list items => do
    let parts ← displayItems items
    return ",".intercalate parts
  | object entries => inspect (object entries)
  | weighted value _ => display value

def displayItems : List Value → Except Fault (List String)
  | [] => .ok []
  | item :: rest => do
    let shown ← display item
    let others ← displayItems rest
    return shown :: others

end

end ProseGrammar.Value
