import ProseGrammar.Proofs.Decimal.Numerals
import ProseGrammar.Proofs.Text.Trimming
import ProseGrammar.Value.Numeric

/-!
# Integers in decimal

A numeral holds no white space, so it can be read with white space around it. The decimal text of an
integer, a minus sign aside, is a numeral that denotes the integer's absolute value. The limit on the
number of digits is the same for writing and for reading.
-/

namespace ProseGrammar

/-! ### Digits -/

theorem isDigit_of_mem_toDigits (n : Nat) (c : Char) (h : c ∈ Nat.toDigits 10 n) :
    Decimal.isDigit c = true := by
  have hc : c.isDigit = true := Nat.isDigit_of_mem_toDigits (by decide) (by decide) h
  simp only [Char.isDigit, Bool.and_eq_true, decide_eq_true_eq] at hc
  simp only [Decimal.isDigit, Bool.and_eq_true, decide_eq_true_eq]
  exact hc

theorem ofDigits_toDigits (n : Nat) : Decimal.ofDigits (Nat.toDigits 10 n) = n :=
  Nat.ofDigitChars_toDigits (by decide) (by decide)

theorem signed_natAbs (n : Int) : Binary64.signed (decide (n < 0)) n.natAbs = n := by
  unfold Binary64.signed
  simp only [decide_eq_true_eq]
  omega

theorem isPlainNumeral_of_digits (ds : List Char) (hne : ds ≠ [])
    (h : ∀ c ∈ ds, Decimal.isDigit c = true) : Text.isPlainNumeral ds = true := by
  have happend := Piece.isPlainNumeral_append ds [] hne h (.inl rfl)
  rwa [List.append_nil] at happend

theorem isBlank_of_isDigit (c : Char) (h : Decimal.isDigit c = true) : Text.isBlank c = false := by
  simp only [Decimal.isDigit, Bool.and_eq_true, decide_eq_true_eq] at h
  have hl : 0x30 ≤ c.toNat := h.1
  have hu : c.toNat ≤ 0x39 := h.2
  simp only [Text.isBlank, Bool.or_eq_false_iff, Bool.and_eq_false_iff, decide_eq_false_iff_not,
    beq_eq_false_iff_ne]
  omega

/-! ### Numerals between white space -/

theorem isBlank_of_isSign {negative : Bool} {cs : List Char} (h : Numeral.IsSign negative cs) :
    ∀ c ∈ cs, Text.isBlank c = false := by
  intro c hc
  cases h with
  | absent => cases hc
  | plus =>
    obtain rfl := List.mem_singleton.mp hc
    decide
  | minus =>
    obtain rfl := List.mem_singleton.mp hc
    decide

theorem isBlank_of_isMantissa {whole : List Char} {fraction : Option (List Char)} {cs : List Char}
    (h : Numeral.IsMantissa whole fraction cs) : ∀ c ∈ cs, Text.isBlank c = false := by
  have hpoint : ∀ es : List Char, (∀ c ∈ es, Decimal.isDigit c = true) →
      ∀ c ∈ '.' :: es, Text.isBlank c = false := by
    intro es hes c hc
    rcases List.mem_cons.mp hc with rfl | hc
    · decide
    · exact isBlank_of_isDigit c (hes c hc)
  intro c hc
  cases h with
  | whole hds => exact isBlank_of_isDigit c (hds.2 c hc)
  | point hds hes =>
    rcases List.mem_append.mp hc with hc | hc
    · exact isBlank_of_isDigit c (hds.2 c hc)
    · exact hpoint _ hes c hc
  | fraction hes => exact hpoint _ hes.2 c hc

theorem isBlank_of_isPower {p : Option Int} {cs : List Char} (h : Numeral.IsPower p cs) :
    ∀ c ∈ cs, Text.isBlank c = false := by
  intro c hc
  cases h with
  | absent => cases hc
  | present he htext hds =>
    rcases List.mem_cons.mp hc with rfl | hc
    · rcases he with rfl | rfl <;> decide
    rcases List.mem_append.mp hc with hc | hc
    · exact isBlank_of_isSign htext c hc
    · exact isBlank_of_isDigit c (hds.2 c hc)

theorem isBlank_of_isSpelt {n : Numeral} {cs : List Char} (h : n.IsSpelt cs) :
    ∀ c ∈ cs, Text.isBlank c = false := by
  obtain ⟨sign, mantissa, power, hsign, hmantissa, hpower, rfl⟩ := h
  intro c hc
  rcases List.mem_append.mp hc with hc | hc
  · exact isBlank_of_isSign hsign c hc
  rcases List.mem_append.mp hc with hc | hc
  · exact isBlank_of_isMantissa hmantissa c hc
  · exact isBlank_of_isPower hpower c hc

theorem trimChars_surrounded {n : Numeral} {cs : List Char} (h : n.IsSpelt cs)
    (before after : List Char) (hbefore : ∀ c ∈ before, Text.isBlank c = true)
    (hafter : ∀ c ∈ after, Text.isBlank c = true) :
    Text.trimChars (before ++ cs ++ after) = cs := by
  refine (Text.trimBy_eq_iff _ _ _).mpr ⟨⟨before, after, hbefore, hafter, rfl⟩, ?_, ?_⟩
  · intro c hc
    exact isBlank_of_isSpelt h c (List.mem_of_mem_head? hc)
  · intro c hc
    exact isBlank_of_isSpelt h c (List.mem_of_mem_getLast? hc)

theorem trimChars_of_isSpelt {n : Numeral} {cs : List Char} (h : n.IsSpelt cs) :
    Text.trimChars cs = cs := by
  have htrim := trimChars_surrounded h [] [] nofun nofun
  rwa [List.nil_append, List.append_nil] at htrim

theorem numberOfText?_of_trimmed {n : Numeral} {s : String}
    (h : n.IsSpelt (Text.trimChars s.toList)) :
    Value.numberOfText? s = some <$> Number.ofNumeral n := by
  rw [Value.numberOfText?, Numeral.ofChars?_of_isSpelt n _ h]

theorem numberOfText?_of_isSpelt {n : Numeral} {cs : List Char} (h : n.IsSpelt cs) :
    Value.numberOfText? (String.ofList cs) = some <$> Number.ofNumeral n := by
  apply numberOfText?_of_trimmed
  rwa [String.toList_ofList, trimChars_of_isSpelt h]

/-! ### Numerals of digits -/

theorem isSpelt_digits (ds : List Char) (hne : ds ≠ [])
    (h : ∀ c ∈ ds, Decimal.isDigit c = true) : Numeral.IsSpelt ⟨false, ds, none, none⟩ ds :=
  ⟨[], ds, [], .absent, .whole ⟨hne, h⟩, .absent, by simp⟩

theorem ofChars?_digits (ds : List Char) (hne : ds ≠ [])
    (h : ∀ c ∈ ds, Decimal.isDigit c = true) :
    Numeral.ofChars? ds = some ⟨false, ds, none, none⟩ :=
  Numeral.ofChars?_of_isSpelt _ ds (isSpelt_digits ds hne h)

theorem ofChars?_pointed (c : Char) (ds es : List Char)
    (hds : ∀ d ∈ c :: ds, Decimal.isDigit d = true) (hes : ∀ e ∈ es, Decimal.isDigit e = true) :
    Numeral.ofChars? (c :: ds ++ '.' :: es) = some ⟨false, c :: ds, some es, none⟩ :=
  Numeral.ofChars?_of_isSpelt _ _ ⟨[], c :: ds ++ '.' :: es, [], .absent,
    .point ⟨List.cons_ne_nil c ds, hds⟩ hes, .absent, by simp⟩

/-- A text that is written as a numeral is read as one without a sign or an exponent; without a point
it is all digits. -/
theorem ofChars?_of_isPlainNumeral (cs : List Char) (h : Text.isPlainNumeral cs = true) :
    ∃ whole fraction, Numeral.ofChars? cs = some ⟨false, whole, fraction, none⟩ ∧
      (fraction = none → whole = cs ∧ ∀ c ∈ cs, Decimal.isDigit c = true) := by
  obtain ⟨c, ds, hds, hcs | ⟨e, es, hes, hcs⟩⟩ := Piece.isPlainNumeral_cases cs h
  · rw [hcs]
    exact ⟨_, _, ofChars?_digits (c :: ds) (List.cons_ne_nil c ds) hds, fun _ => ⟨rfl, hds⟩⟩
  · rw [hcs]
    exact ⟨_, _, ofChars?_pointed c ds (e :: es) hds hes, nofun⟩

theorem trimChars_of_isPlainNumeral (cs : List Char) (h : Text.isPlainNumeral cs = true) :
    Text.trimChars cs = cs := by
  obtain ⟨whole, fraction, hread, _⟩ := ofChars?_of_isPlainNumeral cs h
  exact trimChars_of_isSpelt (Numeral.isSpelt_of_ofChars? _ cs hread)

/-- A text that is written as a numeral denotes a number, unless it has too many digits. -/
theorem numberOfText?_of_isPlainNumeral (s : String) (h : Text.isPlainNumeral s.toList = true)
    (number : Option Number) (hn : Value.numberOfText? s = .ok number) : number.isSome = true := by
  obtain ⟨whole, fraction, hnumeral, _⟩ := ofChars?_of_isPlainNumeral s.toList h
  rw [Value.numberOfText?, trimChars_of_isPlainNumeral _ h, hnumeral] at hn
  replace hn : some <$> Number.ofNumeral ⟨false, whole, fraction, none⟩ = .ok number := hn
  cases hvalue : Number.ofNumeral ⟨false, whole, fraction, none⟩ with
  | error fault =>
    rw [hvalue] at hn
    cases hn
  | ok m =>
    rw [hvalue] at hn
    cases hn
    rfl

/-- The only numerals that denote no number are those of integers with too many digits. -/
theorem integerText_of_isPlainNumeral (s : String) (h : Text.isPlainNumeral s.toList = true)
    (fault : Fault) (hf : Value.numberOfText? s = .error fault) :
    (∀ c ∈ s.toList, Decimal.isDigit c = true) ∧ Decimal.digitLimit < s.toList.length ∧
      fault = .integerText (some s.toList.length) := by
  obtain ⟨whole, fraction, hnumeral, hinteger⟩ := ofChars?_of_isPlainNumeral s.toList h
  rw [Value.numberOfText?, trimChars_of_isPlainNumeral _ h, hnumeral] at hf
  replace hf : some <$> Number.ofNumeral ⟨false, whole, fraction, none⟩ = .error fault := hf
  cases fraction with
  | some fraction => cases hf
  | none =>
    obtain ⟨rfl, hdigits⟩ := hinteger rfl
    by_cases hlong : s.toList.length ≤ Decimal.digitLimit
    · rw [Number.ofNumeral, Numeral.integer, if_pos hlong] at hf
      cases hf
    · rw [Number.ofNumeral, Numeral.integer, if_neg hlong] at hf
      cases hf
      exact ⟨hdigits, Nat.lt_of_not_le hlong, rfl⟩

theorem length_toDigits_le_iff (n : Nat) :
    (Nat.toDigits 10 n).length ≤ Decimal.digitLimit ↔ n < Decimal.digitBound :=
  Nat.length_toDigits_le_iff (by decide) (by decide)

theorem length_toDigits_le (n : Nat) (h : n < Decimal.digitBound) :
    (Nat.toDigits 10 n).length ≤ Decimal.digitLimit :=
  (length_toDigits_le_iff n).mpr h

theorem ofNumeral_toDigits (n : Int) (h : n.natAbs < Decimal.digitBound) :
    Number.ofNumeral ⟨decide (n < 0), Nat.toDigits 10 n.natAbs, none, none⟩ = .ok (.int n) := by
  have hinteger : Numeral.integer (decide (n < 0)) (Nat.toDigits 10 n.natAbs) = .ok n := by
    rw [Numeral.integer, if_pos (length_toDigits_le n.natAbs h), ofDigits_toDigits, signed_natAbs]
  show Number.int <$> Numeral.integer (decide (n < 0)) (Nat.toDigits 10 n.natAbs) = _
  rw [hinteger]
  rfl

theorem numberOfText?_toDigits (n : Nat) (h : n < Decimal.digitBound) :
    Value.numberOfText? (String.ofList (Nat.toDigits 10 n)) = .ok (some (.int n)) := by
  have hspelt := isSpelt_digits _ Nat.toDigits_ne_nil (isDigit_of_mem_toDigits n)
  have hvalue := ofNumeral_toDigits n h
  rw [Int.natAbs_natCast, decide_eq_false (Int.not_lt.mpr (Int.natCast_nonneg n))] at hvalue
  rw [numberOfText?_of_isSpelt hspelt, hvalue]
  rfl

end ProseGrammar
