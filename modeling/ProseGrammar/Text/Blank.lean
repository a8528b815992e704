/-!
# Blank characters

White space in values and in generated text: the controls U+0009 to U+000D and U+001C to U+001F,
U+0085, and the Unicode space separators, line separator and paragraph separator.
-/

namespace ProseGrammar.Text

/-! ### The class -/

def isBlank (c : Char) : Bool :=
  let code := c.toNat
  (0x9 ≤ code && code ≤ 0xD) || (0x1C ≤ code && code ≤ 0x20) || code == 0x85 || code == 0xA0 ||
    code == 0x1680 || (0x2000 ≤ code && code ≤ 0x200A) || code == 0x2028 || code == 0x2029 ||
    code == 0x202F || code == 0x205F || code == 0x3000

/-- Whether a character may stand around a numeral that is read from an argument: white space but
for the controls that separate records. -/
def isMargin (c : Char) : Bool :=
  isBlank c && !(0x1C ≤ c.toNat && c.toNat ≤ 0x1F)

/-! ### Trimming -/

/-- Drops the characters of a class at both ends of a list. -/
def trimBy (drops : Char → Bool) (cs : List Char) : List Char :=
  ((cs.dropWhile drops).reverse.dropWhile drops).reverse

def trimChars (cs : List Char) : List Char :=
  trimBy isBlank cs

def trim (s : String) : String :=
  String.ofList (trimChars s.toList)

end ProseGrammar.Text
