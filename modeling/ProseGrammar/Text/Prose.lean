import ProseGrammar.Text.Blank

/-!
# Running text

Generated text grows part by part. A part that follows text is set off by one space, unless the
text already ends in white space or the part starts with a line feed or closing punctuation.
-/

namespace ProseGrammar.Text

/-! ### Junctions -/

/-- Characters that are set flush against the text before them. -/
def closesUp (c : Char) : Bool :=
  c == '\n' || c == '.' || c == ',' || c == '!' || c == '?' || c == ';' || c == ':'

/-- Whether the junction of two texts is open: neither side is empty, the left one does not end in
white space and the right one does not close up. -/
def needsSpace (left right : String) : Bool :=
  match left.back?, right.front? with
  | some l, some r => !isBlank l && !closesUp r
  | _, _ => false

/-! ### Joining -/

/-- Appends a part to the text so far, with one space where the junction needs it. -/
def joinProse (output part : String) : String :=
  if needsSpace output part then output ++ " " ++ part else output ++ part

@[simp] theorem joinProse_empty_left (part : String) : joinProse "" part = part := by
  simp [joinProse, needsSpace, String.back?_eq]

@[simp] theorem joinProse_empty_right (output : String) : joinProse output "" = output := by
  cases h : output.back? <;> simp [joinProse, needsSpace, String.front?_eq, h]

def prose (parts : List String) : String :=
  parts.foldl joinProse ""

end ProseGrammar.Text
