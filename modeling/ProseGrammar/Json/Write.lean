import ProseGrammar.Knowledge

/-!
# Writing knowledge as JSON

Values are written on one line. A weighted value is an object with the keys `value` and `weight`.
Doubles keep their shortest digits; NaN and the infinities, which JSON lacks, are written by name.
In strings only quotes, backslashes and control characters are escaped.
-/

namespace ProseGrammar.Json

/-! ### Strings -/

def stringChar (c : Char) : List Char :=
  match c with
  | '"' => ['\\', '"']
  | '\\' => ['\\', '\\']
  | '\n' => ['\\', 'n']
  | '\r' => ['\\', 'r']
  | '\t' => ['\\', 't']
  | '\x08' => ['\\', 'b']
  | '\x0c' => ['\\', 'f']
  | c => if c.toNat < 0x20 then '\\' :: 'u' :: Text.hexDigits 4 c.toNat else [c]

def stringText (s : String) : String :=
  String.ofList ('"' :: s.toList.flatMap stringChar ++ ['"'])

/-! ### Values -/

def floatText (x : Float) : String :=
  match Binary64.ofFloat x with
  | .nan => "NaN"
  | .infinity negative => if negative then "-Infinity" else "Infinity"
  | _ => Decimal.floatText x

def braced (parts : List String) : String :=
  "\x7b" ++ ", ".intercalate parts ++ "\x7d"

mutual

def write : Value → Except Fault String
  | .null => .ok "null"
  | .bool b => .ok (if b then "true" else "false")
  | .number (.int n) => Decimal.integerText n
  | .number (.float x) => .ok (floatText x)
  | .text s => .ok (stringText s)
  | .list items => do
    let parts ← writeItems items
    return "[" ++ ", ".intercalate parts ++ "]"
  | .object entries => do
    let parts ← writeEntries entries
    return braced parts
  | .weighted value weight => do
    let shown ← write value
    return braced ["\"value\": " ++ shown, "\"weight\": " ++ floatText weight]

def writeItems : List Value → Except Fault (List String)
  | [] => .ok []
  | item :: rest => do
    let shown ← write item
    let others ← writeItems rest
    return shown :: others

def writeEntries : List (String × Value) → Except Fault (List String)
  | [] => .ok []
  | (key, value) :: rest => do
    let shown ← write value
    let others ← writeEntries rest
    return (stringText key ++ ": " ++ shown) :: others

end

end ProseGrammar.Json
