import ProseGrammar.Grammar
import ProseGrammar.Value.Display
import ProseGrammar.Value.Numeric

/-!
# Knowledge

Knowledge is a table of values that rules read and write along paths of keys. Reading fails where a
path leaves the objects, names an absent key or meets null. Writing replaces null and absent
objects on its way by new ones and fails at any other value that is no object; what lies off the
path stays as it is. Variables that hold objects are written in the same way.

A run starts from an object and keeps one. Evaluation alone may also start from another value: it
can be neither read nor written, and as a table it counts only if it lists pairs.
-/

namespace ProseGrammar

abbrev Knowledge : Type :=
  Table Value

namespace Value

/-! ### Reading -/

/-- The value at the end of a path from `current`, which itself stands at `place`. -/
def resolve (place : List String) (current : Value) : List String → Except EvaluationCause Value
  | [] => .ok current
  | key :: path =>
    let shownPlace := ".".intercalate place
    match current with
    | object entries =>
      match Table.get? entries key with
      | none => .error (.missingProperty key shownPlace (", ".intercalate (Table.keys entries)))
      | some null => .error (.nullProperty key shownPlace)
      | some value => resolve (place ++ [key]) value path
    | _ => .error (.parentNotObject key shownPlace)

/-- The value at the end of a path from `current` where absent keys have the value null. -/
def descend (current : Value) : List String → Except Fault Value
  | [] => .ok current
  | key :: path =>
    match current with
    | object entries => descend ((Table.get? entries key).getD null) path
    | _ => do throw (.evaluation (.valueNotObject key (← current.display)) none)

/-! ### Updating a value -/

/-- The start of an update where nothing is stored: zero for a numeric value, empty text for any
other. -/
def initial (value : Value) : Except Fault Value := do
  match ← value.toNumber? with
  | some _ => return int 0
  | none => return text ""

/-- Adds a value to a stored one: numbers are summed, a list is extended, texts are joined. -/
def increase (stored value : Value) : Except Fault Value := do
  let a ← stored.toNumber?
  let b ← value.toNumber?
  match a, b, stored with
  | some a, some b, _ => number <$> a.add b
  | _, _, list items => return list (items ++ [value])
  | _, _, _ => return text ((← stored.display) ++ (← value.display))

def decrease (stored value : Value) (target : String) : Except Fault Value := do
  let a ← stored.toNumber?
  let b ← value.toNumber?
  match a, b with
  | some a, some b => number <$> a.sub b
  | _, _ => throw (.evaluation .subtractionFromText (some target))

def update (op : AssignOp) (stored : Option Value) (value : Value) (target : String) :
    Except Fault Value := do
  match op with
  | .set => return value
  | op =>
    let stored ← match stored.getD null with
      | null => value.initial
      | v => pure v
    match op with
    | .subtract => decrease stored value target
    | .other symbol =>
      let _ ← stored.toNumber?
      let _ ← value.toNumber?
      throw (.evaluation (.unknownAssignment symbol) (some target))
    | _ => increase stored value

end Value

namespace Knowledge

/-! ### Writing -/

/-- Assigns to the end of a path, making the objects on the way that are absent or null. Gives the
value stored there and the table after the assignment. -/
def write (op : AssignOp) (value : Value) (target : String) :
    (path : List String) → Knowledge → Except Fault (Value × Knowledge)
  | [], _ => .error .indexRange
  | [key], t => do
    let stored ← Value.update op (t.get? key) value target
    return (stored, t.set key stored)
  | key :: path, t => do
    let inner ← match (t.get? key).getD .null with
      | .null => pure []
      | .object entries => pure entries
      | _ => throw (.evaluation (.assignThroughProperty key) (some target))
    let (stored, inner) ← write op value target path inner
    return (stored, t.set key (.object inner))

end Knowledge

namespace Value

/-- Assigns to the end of a path from a value, which must be an object. -/
def write (op : AssignOp) (value : Value) (target : String) (path : List String) (root : Value) :
    Except Fault (Value × Value) := do
  match root, path with
  | object entries, _ =>
    let (stored, entries) ← Knowledge.write op value target path entries
    return (stored, object entries)
  | _, [] => throw .indexRange
  | root, [_] => throw (if op = .set then .notSettable root.kind else .noEntries root.kind)
  | root, _ => throw (.noEntries root.kind)

/-! ### Reading as a table -/

/-- The values that a value lists: characters of a text, items of a list, keys of an object. -/
def listed? : Value → Option (List Value)
  | text s => some (s.toList.map fun c => text (String.singleton c))
  | list items => some items
  | object entries => some (entries.map fun entry => text entry.1)
  | _ => none

/-- A value as a key; the kinds that can be compared only by their parts are none. -/
def key : Value → Except Fault String
  | text s => .ok s
  | list items => .error (.notKey (list items).kind)
  | object entries => .error (.notKey (object entries).kind)
  | weighted value weight => .error (.notKey (weighted value weight).kind)
  | value => value.inspect

/-- Sets the entries that a list of pairs names, the first of which has number `index`. -/
def mergePairs (index : Nat) : List Value → Table Value → Except Fault (Table Value)
  | [], t => .ok t
  | pair :: rest, t =>
    match pair.listed? with
    | none => .error (.notPair index)
    | some [k, value] => do mergePairs (index + 1) rest (t.set (← k.key) value)
    | some values => .error (.pairLength index values.length)

def toTable : Value → Except Fault (Table Value)
  | object entries => .ok entries
  | value =>
    match value.listed? with
    | some pairs => mergePairs 0 pairs []
    | none => .error (.notListing value.kind)

end Value

end ProseGrammar
