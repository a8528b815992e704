/-!
# Line breaks

Files may break lines with a line feed, a carriage return or both; reading turns each of these
into one line feed. A listing breaks a text at every Unicode line boundary.
-/

namespace ProseGrammar.Text

/-! ### Reading -/

/-- Every carriage return, with the line feed that may follow it, becomes one line feed. -/
def unifyBreaks : List Char → List Char
  | [] => []
  | '\r' :: '\n' :: rest => '\n' :: unifyBreaks rest
  | '\r' :: rest => '\n' :: unifyBreaks rest
  | c :: rest => c :: unifyBreaks rest

/-! ### Listing -/

/-- Whether a character ends a line of a listing. -/
def isLineBoundary (c : Char) : Bool :=
  let code := c.toNat
  (0xA ≤ code && code ≤ 0xD) || (0x1C ≤ code && code ≤ 0x1E) || code == 0x85 ||
    code == 0x2028 || code == 0x2029

/-- The lines of a text, the first of which continues `line`, its characters in reverse; a text
that ends in a boundary has no empty last line. -/
def linesFrom (line : List Char) : List Char → List String
  | [] => if line.isEmpty then [] else [String.ofList line.reverse]
  | '\r' :: '\n' :: rest => String.ofList line.reverse :: linesFrom [] rest
  | c :: rest =>
    if isLineBoundary c then String.ofList line.reverse :: linesFrom [] rest
    else linesFrom (c :: line) rest

def lines (s : String) : List String :=
  linesFrom [] s.toList

end ProseGrammar.Text
