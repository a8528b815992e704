import ProseGrammar.Proofs.Decimal.Integers
import ProseGrammar.Value.Display

/-!
# Numeric texts

Which number a text stands for depends on its form alone, white space at both ends aside. A sign and
digits are an integer, unless there are too many digits; a numeral with a point or a power of ten is
a double; no other text is a number. The text that an integer is displayed as stands for the integer
again, whatever white space is around it.
-/

namespace ProseGrammar

open Decimal

/-! ### Integers and doubles -/

namespace Numeral

/-- Whether a text is an integer: a sign or none, and digits. -/
def IsIntegerText (negative : Bool) (ds cs : List Char) : Prop :=
  ∃ sign, IsSign negative sign ∧ AreDigits ds ∧ cs = sign ++ ds

/-- Whether a text is a numeral with a point, a power of ten or both. -/
def IsDoubleText (n : Numeral) (cs : List Char) : Prop :=
  n.IsSpelt cs ∧ (n.fraction ≠ none ∨ n.power ≠ none)

variable {negative : Bool} {ds cs : List Char} {n : Numeral}

theorem isSpelt_integer_iff :
    IsSpelt ⟨negative, ds, none, none⟩ cs ↔ IsIntegerText negative ds cs := by
  constructor
  · rintro ⟨sign, mantissa, power, hsign, hmantissa, hpower, rfl⟩
    cases hmantissa with
    | whole hds =>
      cases hpower with
      | absent => exact ⟨sign, hsign, hds, by rw [List.append_nil]⟩
  · rintro ⟨sign, hsign, hds, rfl⟩
    exact ⟨sign, ds, [], hsign, .whole hds, .absent, by rw [List.append_nil]⟩

theorem isDoubleText_of_isSpelt (h : n.IsSpelt cs)
    (hinteger : ∀ negative ds, ¬IsIntegerText negative ds cs) : n.IsDoubleText cs := by
  obtain ⟨negative, whole, fraction, power⟩ := n
  cases fraction with
  | some es => exact ⟨h, .inl (Option.some_ne_none es)⟩
  | none =>
    cases power with
    | some e => exact ⟨h, .inr (Option.some_ne_none e)⟩
    | none => exact absurd (isSpelt_integer_iff.mp h) (hinteger negative whole)

theorem ofNumeral_of_isDoubleText (h : n.IsDoubleText cs) :
    Number.ofNumeral n = .ok (.float n.toFloat) := by
  have hinteger : n.isInteger = false := by
    simp only [isInteger, Bool.and_eq_false_iff, Option.isNone_eq_false_iff,
      Option.isSome_iff_ne_none]
    exact h.2
  rw [Number.ofNumeral, hinteger, if_neg Bool.false_ne_true]

theorem ofChars?_eq_none_iff : ofChars? cs = none ↔
    (∀ negative ds, ¬IsIntegerText negative ds cs) ∧ ∀ n : Numeral, ¬n.IsDoubleText cs := by
  constructor
  · intro hread
    have hspelt : ∀ n : Numeral, ¬n.IsSpelt cs := by
      intro n hn
      rw [(ofChars?_eq_some_iff cs n).mpr hn] at hread
      cases hread
    exact ⟨fun negative ds h => hspelt _ (isSpelt_integer_iff.mpr h), fun n h => hspelt n h.1⟩
  · rintro ⟨hinteger, hdouble⟩
    cases hread : ofChars? cs with
    | none => rfl
    | some n =>
      have hspelt := (ofChars?_eq_some_iff cs n).mp hread
      exact absurd (isDoubleText_of_isSpelt hspelt hinteger) (hdouble n)

/-- What a text gives when it is read as a number. -/
inductive Gives (cs : List Char) : Except Fault (Option Number) → Prop
  | integer {negative : Bool} {ds : List Char} (h : IsIntegerText negative ds cs)
      (hlength : ds.length ≤ digitLimit) :
      Gives cs (.ok (some (.int (Binary64.signed negative (positional ds)))))
  | tooLong {negative : Bool} {ds : List Char} (h : IsIntegerText negative ds cs)
      (hlength : digitLimit < ds.length) : Gives cs (.error (.integerText (some ds.length)))
  | double {n : Numeral} (h : n.IsDoubleText cs) : Gives cs (.ok (some (.float n.toFloat)))
  | other (hinteger : ∀ negative ds, ¬IsIntegerText negative ds cs)
      (hdouble : ∀ n : Numeral, ¬n.IsDoubleText cs) : Gives cs (.ok none)

end Numeral

/-! ### Reading -/

open Numeral

section Reading

variable {s : String} {result : Except Fault (Option Number)}

theorem numberOfText?_of_integer {negative : Bool} {ds : List Char}
    (h : IsIntegerText negative ds (Text.trimChars s.toList)) :
    Value.numberOfText? s = some <$> Number.int <$> Numeral.integer negative ds :=
  numberOfText?_of_trimmed (isSpelt_integer_iff.mpr h)

theorem gives_numberOfText? (s : String) :
    Gives (Text.trimChars s.toList) (Value.numberOfText? s) := by
  by_cases hinteger : ∃ negative ds, IsIntegerText negative ds (Text.trimChars s.toList)
  · obtain ⟨negative, ds, h⟩ := hinteger
    rw [numberOfText?_of_integer h, Numeral.integer, ofDigits_eq_positional]
    split
    next hlength => exact .integer h hlength
    next hlength => exact .tooLong h (Nat.lt_of_not_le hlength)
  · simp only [not_exists] at hinteger
    cases hread : Numeral.ofChars? (Text.trimChars s.toList) with
    | none =>
      rw [Value.numberOfText?, hread]
      exact .other hinteger (ofChars?_eq_none_iff.mp hread).2
    | some n =>
      have hspelt := (ofChars?_eq_some_iff _ n).mp hread
      have hdouble := isDoubleText_of_isSpelt hspelt hinteger
      rw [numberOfText?_of_trimmed hspelt, ofNumeral_of_isDoubleText hdouble]
      exact .double hdouble

theorem numberOfText?_of_gives (h : Gives (Text.trimChars s.toList) result) :
    Value.numberOfText? s = result := by
  cases h with
  | integer h hlength =>
    rw [numberOfText?_of_integer h, Numeral.integer, if_pos hlength, ofDigits_eq_positional]
    rfl
  | tooLong h hlength =>
    rw [numberOfText?_of_integer h, Numeral.integer, if_neg (Nat.not_le_of_lt hlength)]
    rfl
  | double h =>
    rw [numberOfText?_of_trimmed h.1, ofNumeral_of_isDoubleText h]
    rfl
  | other hinteger hdouble =>
    rw [Value.numberOfText?, ofChars?_eq_none_iff.mpr ⟨hinteger, hdouble⟩]

theorem numberOfText?_eq_iff :
    Value.numberOfText? s = result ↔ Gives (Text.trimChars s.toList) result := by
  constructor
  · rintro rfl
    exact gives_numberOfText? s
  · exact numberOfText?_of_gives

end Reading

/-! ### Integers as they are displayed -/

theorem exists_integerText {n : Int} (h : n.natAbs < digitBound) :
    ∃ shown, integerText n = .ok shown ∧
      IsIntegerText (decide (n < 0)) (Nat.toDigits 10 n.natAbs) shown.toList := by
  have hdigits : AreDigits (Nat.toDigits 10 n.natAbs) :=
    ⟨Nat.toDigits_ne_nil, isDigit_of_mem_toDigits n.natAbs⟩
  rw [integerText, if_pos h]
  by_cases hn : n < 0
  · simp only [hn, decide_true, if_true]
    exact ⟨_, rfl, ['-'], .minus, hdigits, String.toList_ofList⟩
  · simp only [hn, decide_false, if_false]
    exact ⟨_, rfl, [], .absent, hdigits, String.toList_ofList⟩

theorem toNumber?_surrounded {n : Int} (h : n.natAbs < digitBound) (before after : String)
    (hbefore : ∀ c ∈ before.toList, Text.isBlank c = true)
    (hafter : ∀ c ∈ after.toList, Text.isBlank c = true) :
    ∃ shown, (Value.int n).display = .ok shown ∧
      (Value.text (before ++ shown ++ after)).toNumber? = .ok (some (.int n)) := by
  obtain ⟨shown, hshown, hinteger⟩ := exists_integerText h
  have hspelt := isSpelt_integer_iff.mpr hinteger
  have htrim : Text.trimChars (before ++ shown ++ after).toList = shown.toList := by
    rw [String.toList_append, String.toList_append]
    exact trimChars_surrounded hspelt _ _ hbefore hafter
  rw [← htrim] at hspelt
  refine ⟨shown, hshown, ?_⟩
  rw [Value.toNumber?, numberOfText?_of_trimmed hspelt, ofNumeral_toDigits n h]
  rfl

/-! ### The forms of numeric texts -/

/-- Which texts are read as which integers, which have too many digits for it, which are read as
which doubles and which as nothing; `cs` is the text without the white space around it. -/
structure Numeral.DecidedByForm (cs : List Char) (result : Except Fault (Option Number)) : Prop where
  integer (m : Int) : result = .ok (some (.int m)) ↔ ∃ negative ds, IsIntegerText negative ds cs ∧
    ds.length ≤ 4300 ∧ m = Binary64.signed negative (positional ds)
  tooLong (fault : Fault) : result = .error fault ↔ ∃ negative ds, IsIntegerText negative ds cs ∧
    4300 < ds.length ∧ fault = .integerText (some ds.length)
  double (x : Float) : result = .ok (some (.float x)) ↔
    ∃ n : Numeral, n.IsDoubleText cs ∧ x = n.toFloat
  other : result = .ok none ↔
    (∀ negative ds, ¬IsIntegerText negative ds cs) ∧ ∀ n : Numeral, ¬n.IsDoubleText cs

theorem decidedByForm (s : String) :
    DecidedByForm (Text.trimChars s.toList) (Value.numberOfText? s) := by
  constructor
  case integer =>
    intro m
    rw [numberOfText?_eq_iff]
    constructor
    · intro hgives
      cases hgives with
      | integer h hlength => exact ⟨_, _, h, hlength, rfl⟩
    · rintro ⟨negative, ds, h, hlength, rfl⟩
      exact .integer h hlength
  case tooLong =>
    intro fault
    rw [numberOfText?_eq_iff]
    constructor
    · intro hgives
      cases hgives with
      | tooLong h hlength => exact ⟨_, _, h, hlength, rfl⟩
    · rintro ⟨negative, ds, h, hlength, rfl⟩
      exact .tooLong h hlength
  case double =>
    intro x
    rw [numberOfText?_eq_iff]
    constructor
    · intro hgives
      cases hgives with
      | double h => exact ⟨_, h, rfl⟩
    · rintro ⟨n, h, rfl⟩
      exact .double h
  case other =>
    rw [numberOfText?_eq_iff]
    constructor
    · intro hgives
      cases hgives with
      | other hinteger hdouble => exact ⟨hinteger, hdouble⟩
    · rintro ⟨hinteger, hdouble⟩
      exact .other hinteger hdouble

/-- What a text is read as is decided by what trimming leaves of it, and an integer that has a text
is read back from it, with any white space around. -/
theorem numericText_decided :
    (∀ s : String, Text.IsTrimmed Text.isBlank s.toList (Text.trimChars s.toList) ∧
      DecidedByForm (Text.trimChars s.toList) (Value.text s).toNumber?) ∧
    ∀ (n : Int) (before after : String), (Nat.toDigits 10 n.natAbs).length ≤ 4300 →
      (∀ c ∈ before.toList, Text.isBlank c = true) → (∀ c ∈ after.toList, Text.isBlank c = true) →
      ∃ shown, (Value.int n).display = .ok shown ∧
        (Value.text (before ++ shown ++ after)).toNumber? = .ok (some (.int n)) := by
  constructor
  · intro s
    exact ⟨(Text.trimBy_eq_iff _ _ _).mp rfl, decidedByForm s⟩
  · intro n before after hlength hbefore hafter
    have hbound := (length_toDigits_le_iff n.natAbs).mp hlength
    exact toNumber?_surrounded hbound before after hbefore hafter

/-- A plus sign and zeros in front are read over; a minus sign is written. -/
theorem numericText_decided_fortyTwo :
    (Value.text " +0042\n").toNumber? = .ok (some (.int 42)) ∧
      (Nat.toDigits 10 (-42 : Int).natAbs).length ≤ 4300 ∧
      (∀ c ∈ "\t ".toList, Text.isBlank c = true) ∧
      (∀ c ∈ "\u3000\n".toList, Text.isBlank c = true) ∧
      ∃ shown, (Value.int (-42)).display = .ok shown ∧
        (Value.text ("\t " ++ shown ++ "\u3000\n")).toNumber? = .ok (some (.int (-42))) := by
  have hdigits : AreDigits ['0', '0', '4', '2'] := ⟨List.cons_ne_nil _ _, List.all_eq_true.mp rfl⟩
  have hlength : (Nat.toDigits 10 (-42 : Int).natAbs).length ≤ 4300 := by decide
  have hbefore : ∀ c ∈ "\t ".toList, Text.isBlank c = true := List.all_eq_true.mp rfl
  have hafter : ∀ c ∈ "\u3000\n".toList, Text.isBlank c = true := List.all_eq_true.mp rfl
  refine ⟨?_, hlength, hbefore, hafter, numericText_decided.2 (-42) _ _ hlength hbefore hafter⟩
  exact ((numericText_decided.1 " +0042\n").2.integer 42).mpr
    ⟨false, ['0', '0', '4', '2'], ⟨['+'], .plus, hdigits, rfl⟩, by decide, rfl⟩

end ProseGrammar
