import ProseGrammar.Proofs.Grammar.Legible

/-!
# Literals as tokens

A text that is written as a literal splits into one token, whose value is the text. The token is a
name or a number if the text has the form of one, in running text it is a mark if the text is one of
four marks, and in every other case it is a string.
-/

namespace ProseGrammar

/-! ### Forms of texts -/

namespace Text

def IsLetter (c : Char) : Prop :=
  ('a' ≤ c ∧ c ≤ 'z') ∨ ('A' ≤ c ∧ c ≤ 'Z') ∨ c = '_'

def IsFigure (c : Char) : Prop :=
  '0' ≤ c ∧ c ≤ '9'

/-- Whether a text is a letter, with letters and figures behind it. -/
def IsIdentifier (s : String) : Prop :=
  ∃ c cs, s.toList = c :: cs ∧ IsLetter c ∧ ∀ d ∈ cs, IsLetter d ∨ IsFigure d

/-- Whether a text is figures, at least one, and then nothing or a point and figures, at least one. -/
def IsNumeral (s : String) : Prop :=
  ∃ whole, whole ≠ [] ∧ (∀ d ∈ whole, IsFigure d) ∧
    (s.toList = whole ∨ ∃ fraction, fraction ≠ [] ∧ (∀ d ∈ fraction, IsFigure d) ∧
      s.toList = whole ++ '.' :: fraction)

theorem isNameStart_iff (c : Char) : isNameStart c = true ↔ IsLetter c := by
  simp only [isNameStart, Bool.or_eq_true, Bool.and_eq_true, decide_eq_true_eq, beq_iff_eq, IsLetter,
    or_assoc]

theorem isDigit_iff (c : Char) : Decimal.isDigit c = true ↔ IsFigure c := by
  simp only [Decimal.isDigit, Bool.and_eq_true, decide_eq_true_eq, IsFigure]

theorem isName_iff (s : String) : isName s.toList = true ↔ IsIdentifier s := by
  have hchar : ∀ d, isNameChar d = true ↔ IsLetter d ∨ IsFigure d := by
    intro d
    rw [isNameChar, Bool.or_eq_true, isNameStart_iff, isDigit_iff]
  cases hs : s.toList with
  | nil => simp [isName, IsIdentifier, hs]
  | cons c cs =>
    simp only [isName, Bool.and_eq_true, List.all_eq_true, isNameStart_iff, hchar]
    constructor
    · rintro ⟨hc, hcs⟩
      exact ⟨c, cs, hs, hc, hcs⟩
    · rintro ⟨d, ds, hds, hd, hall⟩
      obtain ⟨rfl, rfl⟩ := List.cons.inj (hs.symm.trans hds)
      exact ⟨hd, hall⟩

theorem isPlainNumeral_iff (s : String) : isPlainNumeral s.toList = true ↔ IsNumeral s := by
  constructor
  · intro h
    obtain ⟨c, ds, hds, hs⟩ := Piece.isPlainNumeral_cases s.toList h
    refine ⟨c :: ds, List.cons_ne_nil c ds, fun d hd => (isDigit_iff d).mp (hds d hd), ?_⟩
    rcases hs with hs | ⟨e, es, hes, hs⟩
    · exact .inl hs
    · exact .inr ⟨e :: es, List.cons_ne_nil e es, fun d hd => (isDigit_iff d).mp (hes d hd), hs⟩
  · rintro ⟨whole, hne, hwhole, hs⟩
    have hdigits : ∀ d ∈ whole, Decimal.isDigit d = true := fun d hd =>
      (isDigit_iff d).mpr (hwhole d hd)
    rcases hs with hs | ⟨fraction, hne', hfraction, hs⟩
    · rw [hs, ← List.append_nil whole]
      exact Piece.isPlainNumeral_append whole [] hne hdigits (.inl rfl)
    · rw [hs]
      exact Piece.isPlainNumeral_append whole _ hne hdigits
        (.inr ⟨fraction, rfl, hne', fun d hd => (isDigit_iff d).mpr (hfraction d hd)⟩)

/-- The texts that running text writes as they stand, although they are no words. -/
def marks : List String :=
  [".", ",", "!", ":"]

theorem isBarePunctuation_iff (s : String) : isBarePunctuation s = true ↔ s ∈ marks := by
  simp [isBarePunctuation, marks, or_assoc]

theorem not_isIdentifier_of_isNumeral (s : String) (h : IsNumeral s) : ¬IsIdentifier s := by
  rw [← isName_iff, Piece.isName_of_isPlainNumeral _ ((isPlainNumeral_iff s).mpr h)]
  decide

theorem not_isWord_of_mem_marks (s : String) (h : s ∈ marks) : ¬IsIdentifier s ∧ ¬IsNumeral s := by
  rw [← isName_iff, ← isPlainNumeral_iff]
  rcases Piece.isBarePunctuation_cases s ((isBarePunctuation_iff s).mpr h) with
    rfl | rfl | rfl | rfl <;> decide

/-- Whether a kind of token is the one that a text is written as, in running text or elsewhere. -/
structure IsWrittenAs (s : String) (inText : Bool) (kind : TokenKind) : Prop where
  identifier : kind = .identifier ↔ IsIdentifier s
  number : kind = .number ↔ IsNumeral s
  dot : kind = .dot ↔ inText = true ∧ s = "."
  comma : kind = .comma ↔ inText = true ∧ s = ","
  bang : kind = .bang ↔ inText = true ∧ s = "!"
  colon : kind = .colon ↔ inText = true ∧ s = ":"
  string : kind = .string ↔ ¬IsIdentifier s ∧ ¬IsNumeral s ∧ ¬(inText = true ∧ s ∈ marks)

theorem isWrittenAs_word (s : String) (inText : Bool) (kind : TokenKind)
    (h : kind = .identifier ∧ IsIdentifier s ∨ kind = .number ∧ IsNumeral s) :
    IsWrittenAs s inText kind := by
  have hmark : s ∉ marks := by
    intro hs
    obtain ⟨hidentifier, hnumeral⟩ := not_isWord_of_mem_marks s hs
    rcases h with ⟨-, h⟩ | ⟨-, h⟩
    · exact hidentifier h
    · exact hnumeral h
  have hne : ∀ mark ∈ marks, s ≠ mark := by
    rintro mark hmem rfl
    exact hmark hmem
  have hnumeral := not_isIdentifier_of_isNumeral s
  have hdot := hne "." (by decide)
  have hcomma := hne "," (by decide)
  have hbang := hne "!" (by decide)
  have hcolon := hne ":" (by decide)
  rcases h with ⟨rfl, h⟩ | ⟨rfl, h⟩ <;> constructor <;> simp_all

theorem isWrittenAs_mark (s : String) (h : s ∈ marks) :
    ∃ kind, Piece.punctuation s = Piece.symbol kind ∧ kind.symbol = s.toList ∧
      IsWrittenAs s true kind := by
  obtain ⟨hidentifier, hnumeral⟩ := not_isWord_of_mem_marks s h
  rcases Piece.isBarePunctuation_cases s ((isBarePunctuation_iff s).mpr h) with
    rfl | rfl | rfl | rfl
  all_goals
    refine ⟨_, rfl, rfl, ?_⟩
    constructor <;> simp [hidentifier, hnumeral, marks]

theorem isWrittenAs_string (s : String) (inText : Bool) (hidentifier : ¬IsIdentifier s)
    (hnumeral : ¬IsNumeral s) (hmark : ¬(inText = true ∧ s ∈ marks)) :
    IsWrittenAs s inText .string := by
  constructor <;> simp_all [marks]

end Text

/-! ### Tokens -/

theorem Piece.literal_eq (s : String) (inText : Bool) :
    ∃ kind cs, literal s inText = token kind s.toList cs ∧ Text.IsWrittenAs s inText kind := by
  by_cases hidentifier : Text.isName s.toList = true
  · refine ⟨.identifier, s.toList, ?_, Text.isWrittenAs_word s inText _ (.inl ⟨rfl, ?_⟩)⟩
    · simp [literal, Text.isBareWord, word, name, hidentifier]
    · exact (Text.isName_iff s).mp hidentifier
  by_cases hnumeral : Text.isPlainNumeral s.toList = true
  · refine ⟨.number, s.toList, ?_, Text.isWrittenAs_word s inText _ (.inr ⟨rfl, ?_⟩)⟩
    · simp [literal, Text.isBareWord, word, numeral, hidentifier, hnumeral]
    · exact (Text.isPlainNumeral_iff s).mp hnumeral
  have hword : Text.isBareWord s = false := by simp [Text.isBareWord, hidentifier, hnumeral]
  rw [literal, hword, if_neg Bool.false_ne_true]
  by_cases hmark : inText = true ∧ s ∈ Text.marks
  · obtain ⟨rfl, hmark⟩ := hmark
    obtain ⟨kind, hpiece, hsymbol, hkind⟩ := Text.isWrittenAs_mark s hmark
    refine ⟨kind, s.toList, ?_, hkind⟩
    rw [(Text.isBarePunctuation_iff s).mpr hmark, Bool.and_self, if_pos rfl, hpiece, symbol, hsymbol]
  · refine ⟨.string, '"' :: s.toList.flatMap Text.stringChar ++ ['"'], ?_,
      Text.isWrittenAs_string s inText ?_ ?_ hmark⟩
    · rw [← Text.isBarePunctuation_iff, ← Bool.and_eq_true] at hmark
      rw [if_neg hmark, quote]
    · rwa [← Text.isName_iff]
    · rwa [← Text.isPlainNumeral_iff]

/-- The literal of any text splits into one token and the end of the text. The value of the token is
the text, and its kind depends on the form of the text alone. -/
theorem scan_literalSource (s : String) (inText : Bool) :
    ∃ source kind, (Value.text s).literalSource inText = .ok source ∧
      Token.scan source = .ok [⟨kind, s, ⟨1, 1⟩⟩,
        ⟨.endOfText, "", (⟨1, 1⟩ : Position).after source.toList⟩] ∧
      Text.IsWrittenAs s inText kind := by
  obtain ⟨kind, cs, hliteral, hkind⟩ := Piece.literal_eq s inText
  have hchars : cs = (Text.literalSource s inText).toList := by
    rw [← Piece.text_literal, hliteral]
    rfl
  have hlegible := settled_literal s inText [] Piece.free_nil
  refine ⟨Text.literalSource s inText, kind, rfl, ?_, hkind⟩
  have hscan := Piece.scanFrom_text [Piece.literal s inText] hlegible ⟨1, 1⟩
  rw [Piece.text_cons, Piece.text_nil, List.append_nil, Piece.text_literal, hliteral] at hscan
  rw [Token.scan, hscan, Piece.tokens, Piece.tokens, String.ofList_toList, hchars]

end ProseGrammar
