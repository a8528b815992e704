import ProseGrammar.Knowledge
import ProseGrammar.Stack
import ProseGrammar.Value.Weighted

/-!
# Reading knowledge from JSON

An object with exactly the keys `value` and `weight` is a weighted value; every other object is
read in the order of its keys, a repeated key at its first place with its last value. A number with
a point or an exponent is a double, any other an integer. Besides JSON the names `NaN`, `Infinity`
and `-Infinity` are read. The top of knowledge must be an object. Texts are of characters: half of a
surrogate pair on its own, which could be kept but never printed, is a fault at once.

What is not JSON is reported with the place in the text where reading stops. Objects and lists are
read inside of each other, each by a call, so reading needs room for as many as the text nests. It
also needs room to show what is given for a weight and refused.
-/

namespace ProseGrammar.Json

/-! ### Places -/

/-- The fault of a text at the place that has `left` characters behind it. -/
def faultAt (text : List Char) (cause : JsonCause) (left : Nat) : Fault :=
  let before := text.take (text.length - left)
  let line := before.reverse.takeWhile fun c => c ≠ '\n'
  .jsonSyntax cause ⟨before.count '\n' + 1, line.length + 1⟩ before.length

/-! ### Blanks and strings -/

def skipBlanks (cs : List Char) : List Char :=
  cs.dropWhile fun c => c == ' ' || c == '\t' || c == '\n' || c == '\r'

def hexValue? (c : Char) : Option Nat :=
  if Decimal.isDigit c then some (c.toNat - '0'.toNat)
  else if 'a' ≤ c && c ≤ 'f' then some (c.toNat - 'a'.toNat + 10)
  else if 'A' ≤ c && c ≤ 'F' then some (c.toNat - 'A'.toNat + 10)
  else none

def hexGroup? (a b c d : Char) : Option Nat := do
  let a ← hexValue? a
  let b ← hexValue? b
  let c ← hexValue? c
  let d ← hexValue? d
  return ((a * 16 + b) * 16 + c) * 16 + d

def escape? : Char → Option Char
  | '"' => some '"'
  | '\\' => some '\\'
  | '/' => some '/'
  | 'b' => some '\x08'
  | 'f' => some '\x0c'
  | 'n' => some '\n'
  | 'r' => some '\r'
  | 't' => some '\t'
  | _ => none

def isHighSurrogate (unit : Nat) : Bool :=
  0xD800 ≤ unit && unit ≤ 0xDBFF

def isLowSurrogate (unit : Nat) : Bool :=
  0xDC00 ≤ unit && unit ≤ 0xDFFF

def pairChar (high low : Nat) : Char :=
  Char.ofNat (0x10000 + (high - 0xD800) * 0x400 + (low - 0xDC00))

section

variable (text : List Char)

/-- Goes on if there is no first half of a surrogate pair that waits for its second one. -/
def unlessHalf {α : Type} (half : Option Nat) (next : Except Fault α) : Except Fault α :=
  match half with
  | some high => .error (.loneSurrogate high)
  | none => next

def prepend (c : Char) (read : Except Fault (List Char × List Char)) :
    Except Fault (List Char × List Char) := do
  let (body, rest) ← read
  return (c :: body, rest)

/-- The code unit of an escape with four digits. There is none at the very end of the text, whatever
the digits are. -/
def unit? (a b c d : Char) (rest : List Char) : Option Nat :=
  if rest.isEmpty then none else hexGroup? a b c d

/-- The characters of a string whose opening quote has `start - 1` characters behind it, and the text
after its closing quote. The first half of a surrogate pair waits for the second one. -/
def stringBody (start : Nat) (half : Option Nat) :
    List Char → Except Fault (List Char × List Char)
  | [] => .error (faultAt text .unterminatedString start)
  | '\\' :: 'u' :: a :: b :: c :: d :: rest =>
    match unit? a b c d rest, half with
    | none, _ => .error (faultAt text .malformedEscape (rest.length + 5))
    | some unit, some high =>
      if isLowSurrogate unit then prepend (pairChar high unit) (stringBody start none rest)
      else .error (.loneSurrogate high)
    | some unit, none =>
      if isHighSurrogate unit then stringBody start (some unit) rest
      else if isLowSurrogate unit then .error (.loneSurrogate unit)
      else prepend (Char.ofNat unit) (stringBody start none rest)
  | '\\' :: e :: rest => unlessHalf half <|
    match escape? e with
    | none =>
      .error (if e = 'u' then faultAt text .malformedEscape (rest.length + 1)
        else faultAt text .unknownEscape (rest.length + 2))
    | some c => prepend c (stringBody start none rest)
  | c :: rest => unlessHalf half <|
    if c == '"' then .ok ([], rest)
    else if c.toNat < 0x20 then .error (faultAt text .controlCharacter (rest.length + 1))
    else if c == '\\' then .error (faultAt text .unterminatedString start)
    else prepend c (stringBody start none rest)

/-- The string after an opening quote. -/
def string (cs : List Char) : Except Fault (String × List Char) := do
  let (body, rest) ← stringBody text (cs.length + 1) none cs
  return (String.ofList body, rest)

end

/-! ### Numbers -/

/-- Splits off the digits before the point: a zero, or digits that do not start with one. -/
def wholeDigits? (cs : List Char) : Option (List Char × List Char) :=
  match cs with
  | '0' :: rest => some (['0'], rest)
  | _ =>
    let (digits, rest) := Numeral.digits cs
    if digits.isEmpty then none else some (digits, rest)

def fractionDigits (cs : List Char) : Option (List Char) × List Char :=
  match cs with
  | '.' :: rest =>
    let (digits, rest) := Numeral.digits rest
    if digits.isEmpty then (none, cs) else (some digits, rest)
  | _ => (none, cs)

def exponent (cs : List Char) : Option Int × List Char :=
  match cs with
  | e :: rest =>
    let (negative, rest) := Numeral.sign rest
    let (digits, rest) := Numeral.digits rest
    if (e == 'e' || e == 'E') && !digits.isEmpty then
      (some (Binary64.signed negative (Decimal.ofDigits digits)), rest)
    else (none, cs)
  | [] => (none, cs)

def number (text cs : List Char) : Except Fault (Value × List Char) := do
  let (negative, digits) : Bool × List Char := match cs with
    | '-' :: rest => (true, rest)
    | _ => (false, cs)
  match wholeDigits? digits with
  | none => throw (faultAt text .expectedValue cs.length)
  | some (whole, rest) =>
    let (fraction, rest) := fractionDigits rest
    let (power, rest) := exponent rest
    return (.number (← Number.ofNumeral { negative, whole, fraction, power }), rest)

/-! ### Values -/

/-- A weighted value. A weight is shown when it is refused, which takes room if it has parts. -/
def weightedIn (room : Nat) (value weight : Value) : Except Fault Value :=
  Stack.enter (.stack .showing) weight.inspectCalls room fun _ => value.withWeight weight

theorem weightedIn_of_room {room : Nat} {value weight : Value} (h : weight.inspectCalls ≤ room) :
    weightedIn room value weight = value.withWeight weight :=
  if_pos h

def objectOf (room : Nat) (entries : List (String × Value)) : Except Fault Value :=
  let table := Table.ofEntries entries
  match Table.get? table "value", Table.get? table "weight" with
  | some value, some weight =>
    if table.length = 2 then weightedIn room value weight else .ok (.object table)
  | _, _ => .ok (.object table)

mutual

/-- Reads a value. Every value, item and entry uses up one unit of `fuel`; two units for each
character suffice. -/
def value (text : List Char) : (room fuel : Nat) → List Char → Except Fault (Value × List Char)
  | _, 0, cs => .error (faultAt text .expectedValue cs.length)
  | room, fuel + 1, cs =>
    match cs with
    | '"' :: rest => do
      let (s, rest) ← string text rest
      return (.text s, rest)
    | '\x7b' :: rest => Stack.enter (.stack .readingObject) 1 room fun room =>
      match skipBlanks rest with
      | '\x7d' :: rest => .ok (.object [], rest)
      | rest => do
        let (entries, rest) ← members text room fuel rest
        return (← objectOf room entries, rest)
    | '[' :: rest => Stack.enter (.stack .readingList) 1 room fun room =>
      match skipBlanks rest with
      | ']' :: rest => .ok (.list [], rest)
      | rest => do
        let (items, rest) ← elements text room fuel rest
        return (.list items, rest)
    | 'n' :: 'u' :: 'l' :: 'l' :: rest => .ok (.null, rest)
    | 't' :: 'r' :: 'u' :: 'e' :: rest => .ok (.bool true, rest)
    | 'f' :: 'a' :: 'l' :: 's' :: 'e' :: rest => .ok (.bool false, rest)
    | 'N' :: 'a' :: 'N' :: rest => .ok (.float (0 / 0), rest)
    | 'I' :: 'n' :: 'f' :: 'i' :: 'n' :: 'i' :: 't' :: 'y' :: rest => .ok (.float (1 / 0), rest)
    | '-' :: 'I' :: 'n' :: 'f' :: 'i' :: 'n' :: 'i' :: 't' :: 'y' :: rest =>
      .ok (.float (-1 / 0), rest)
    | _ => number text cs

def elements (text : List Char) :
    (room fuel : Nat) → List Char → Except Fault (List Value × List Char)
  | _, 0, cs => .error (faultAt text .expectedValue cs.length)
  | room, fuel + 1, cs => do
    let (item, rest) ← value text room fuel cs
    match skipBlanks rest with
    | ']' :: rest => return ([item], rest)
    | ',' :: rest =>
      let (items, rest) ← elements text room fuel (skipBlanks rest)
      return (item :: items, rest)
    | rest => throw (faultAt text .expectedComma rest.length)

def members (text : List Char) :
    (room fuel : Nat) → List Char → Except Fault (List (String × Value) × List Char)
  | _, 0, cs => .error (faultAt text .expectedKey cs.length)
  | room, fuel + 1, cs =>
    match cs with
    | '"' :: rest => do
      let (key, rest) ← string text rest
      match skipBlanks rest with
      | ':' :: rest =>
        let (v, rest) ← value text room fuel (skipBlanks rest)
        match skipBlanks rest with
        | '\x7d' :: rest => return ([(key, v)], rest)
        | ',' :: rest =>
          let (entries, rest) ← members text room fuel (skipBlanks rest)
          return ((key, v) :: entries, rest)
        | rest => throw (faultAt text .expectedComma rest.length)
      | rest => throw (faultAt text .expectedColon rest.length)
    | cs => .error (faultAt text .expectedKey cs.length)

end

/-! ### Texts -/

/-- Reads a text in some room for objects and lists inside of each other. -/
def readOn (room : Nat) (s : String) : Except Fault Value :=
  let text := s.toList
  if text.head? = some '\uFEFF' then .error (faultAt text .byteOrderMark text.length)
  else do
    let cs := skipBlanks text
    let (v, rest) ← value text room (2 * cs.length + 2) cs
    let rest := skipBlanks rest
    if rest.isEmpty then return v else throw (faultAt text .extraData rest.length)

/-- Reads a text with as much room as it takes, which is no more than two calls for each
character. -/
def read (s : String) : Except Fault Value :=
  readOn (2 * s.length) s

def readKnowledgeOn (room : Nat) (s : String) : Except Fault Knowledge := do
  match ← readOn room s with
  | .object entries => return entries
  | _ => throw .jsonNotObject

def readKnowledge (s : String) : Except Fault Knowledge :=
  readKnowledgeOn (2 * s.length) s

end ProseGrammar.Json
