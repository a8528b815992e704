import ProseGrammar.Json.Read
import ProseGrammar.Json.Write
import ProseGrammar.Proofs.Binary64
import ProseGrammar.Proofs.Decimal.Integers

/-!
# Numbers in JSON

The text of a number is a numeral in the form that JSON has for it: without a zero in front of other
digits, and with digits at both sides of a point. So it is read up to its end, and what it is read
as is what the numeral denotes. An integer without a point or an exponent stays an integer, and a
double, which has one of them, stays a double.
-/

namespace ProseGrammar

/-! ### Digits -/

namespace Decimal

theorem areDigits_toDigits (n : Nat) : AreDigits (Nat.toDigits 10 n) :=
  ⟨Nat.toDigits_ne_nil, isDigit_of_mem_toDigits n⟩

theorem areDigits_zero : AreDigits ['0'] :=
  areDigits_toDigits 0

theorem isDigit_of_mem_zeros {n : Nat} {c : Char} (h : c ∈ List.replicate n '0') :
    isDigit c = true := by
  rw [List.eq_of_mem_replicate h]
  decide

namespace AreDigits

variable {ds : List Char} (h : AreDigits ds)
include h

theorem zeros_append (n : Nat) : AreDigits (List.replicate n '0' ++ ds) :=
  ⟨List.append_ne_nil_of_right_ne_nil _ h.1,
    fun c hc => (List.mem_append.mp hc).elim isDigit_of_mem_zeros (h.2 c)⟩

theorem append_zeros (n : Nat) : AreDigits (ds ++ List.replicate n '0') :=
  ⟨List.append_ne_nil_of_left_ne_nil h.1 _,
    fun c hc => (List.mem_append.mp hc).elim (h.2 c) isDigit_of_mem_zeros⟩

theorem take (n : Nat) (hn : 0 < n) : AreDigits (ds.take n) := by
  refine ⟨?_, fun c hc => h.2 c (List.mem_of_mem_take hc)⟩
  rw [Ne, List.take_eq_nil_iff]
  rintro (hzero | hnil)
  · omega
  · exact h.1 hnil

theorem drop (n : Nat) (hn : ds.drop n ≠ []) : AreDigits (ds.drop n) :=
  ⟨hn, fun c hc => h.2 c (List.mem_of_mem_drop hc)⟩

end AreDigits

end Decimal

/-! ### Forms of numerals -/

/-- A numeral without its sign, in the form that JSON has for it. -/
structure Decimal.Form where
  whole : List Char
  fraction : Option (List Char)
  /-- Whether the exponent is negative, and its digits. -/
  power : Option (Bool × List Char)

namespace Decimal.Form

def fractionChars : Option (List Char) → List Char
  | none => []
  | some digits => '.' :: digits

def powerChars : Option (Bool × List Char) → List Char
  | none => []
  | some (negative, digits) => 'e' :: (if negative then '-' else '+') :: digits

def chars (f : Form) : List Char :=
  f.whole ++ (fractionChars f.fraction ++ powerChars f.power)

def numeral (f : Form) (negative : Bool) : Numeral :=
  ⟨negative, f.whole, f.fraction, f.power.map fun p => Binary64.signed p.1 (ofDigits p.2)⟩

structure IsValid (f : Form) : Prop where
  whole : AreDigits f.whole
  fraction : ∀ ds ∈ f.fraction, AreDigits ds
  power : ∀ p ∈ f.power, AreDigits p.2

/-- Whether no zero stands in front of other whole digits. -/
def IsUnpadded (f : Form) : Prop :=
  f.whole = ['0'] ∨ f.whole.head? ≠ some '0'

end Decimal.Form

open Decimal

/-- Whether what follows a numeral in JSON does not continue it. -/
def Json.Stops (rest : List Char) : Prop :=
  ∀ c ∈ rest.head?, c = ',' ∨ c = ']' ∨ c = '}'

namespace Json.Stops

variable {rest : List Char} (h : Stops rest)
include h

theorem head_ne {c d : Char} (hc : c ∈ rest.head?) (hd : d ≠ ',' ∧ d ≠ ']' ∧ d ≠ '\x7d') :
    c ≠ d := by
  rintro rfl
  rcases h c hc with rfl | rfl | rfl
  · exact hd.1 rfl
  · exact hd.2.1 rfl
  · exact hd.2.2 rfl

theorem isDigit {c : Char} (hc : c ∈ rest.head?) : Decimal.isDigit c = false := by
  rcases h c hc with rfl | rfl | rfl <;> decide

end Json.Stops

namespace Decimal.Form

variable {f : Form} {rest : List Char}

theorem head_fractionChars {fraction : Option (List Char)} {tail : List Char} {c : Char}
    (hc : c ∈ (fractionChars fraction ++ tail).head?) : c = '.' ∨ c ∈ tail.head? := by
  cases fraction with
  | none => exact .inr hc
  | some ds => exact .inl (Option.some.inj hc).symm

theorem head_powerChars {power : Option (Bool × List Char)} {c : Char}
    (hc : c ∈ (powerChars power ++ rest).head?) : c = 'e' ∨ c ∈ rest.head? := by
  cases power with
  | none => exact .inr hc
  | some p => exact .inl (Option.some.inj hc).symm

/-- What follows the whole digits and what follows the digits of the fraction is no digit. -/
theorem isDigit_powerChars (hrest : ∀ c ∈ rest.head?, isDigit c = false)
    (power : Option (Bool × List Char)) :
    ∀ c ∈ (powerChars power ++ rest).head?, isDigit c = false := by
  intro c hc
  rcases head_powerChars hc with rfl | hc
  · decide
  · exact hrest c hc

theorem isDigit_fractionChars {tail : List Char} (htail : ∀ c ∈ tail.head?, isDigit c = false)
    (fraction : Option (List Char)) :
    ∀ c ∈ (fractionChars fraction ++ tail).head?, isDigit c = false := by
  intro c hc
  rcases head_fractionChars hc with rfl | hc
  · decide
  · exact htail c hc

/-! ### Reading -/

theorem digits_power (hf : f.IsValid) {p : Bool × List Char} (hp : f.power = some p)
    (hrest : ∀ c ∈ rest.head?, isDigit c = false) :
    Numeral.digits (p.2 ++ rest) = (p.2, rest) :=
  digits_append p.2 rest (hf.power p hp).2 hrest

theorem exists_head_chars (hf : f.IsValid) :
    ∃ c cs, f.chars = c :: cs ∧ isDigit c = true := by
  obtain ⟨hne, hdigits⟩ := hf.whole
  obtain ⟨c, ds, hwhole⟩ := List.exists_cons_of_ne_nil hne
  have hchars : f.chars = c :: (ds ++ (fractionChars f.fraction ++ powerChars f.power)) := by
    rw [chars, hwhole, List.cons_append]
  exact ⟨c, _, hchars, hdigits c (by rw [hwhole]; exact List.mem_cons_self)⟩

theorem isMantissa_chars (hf : f.IsValid) :
    Numeral.IsMantissa f.whole f.fraction (f.whole ++ fractionChars f.fraction) := by
  cases hfraction : f.fraction with
  | none =>
    rw [fractionChars, List.append_nil]
    exact .whole hf.whole
  | some ds => exact .point hf.whole (hf.fraction ds hfraction).2

theorem isPower_powerChars (hf : f.IsValid) :
    Numeral.IsPower (f.power.map fun p => Binary64.signed p.1 (ofDigits p.2))
      (powerChars f.power) := by
  cases hpower : f.power with
  | none => exact .absent
  | some p =>
    obtain ⟨minus, ds⟩ := p
    have hds := hf.power (minus, ds) hpower
    rw [Option.map_some, ofDigits_eq_positional]
    cases minus with
    | false => exact .present (.inl rfl) .plus hds
    | true => exact .present (.inl rfl) .minus hds

theorem isSpelt_chars (hf : f.IsValid) (negative : Bool) :
    (f.numeral negative).IsSpelt (if negative then '-' :: f.chars else f.chars) := by
  refine ⟨if negative then ['-'] else [], _, _, ?_, isMantissa_chars hf, isPower_powerChars hf, ?_⟩
  · cases negative with
    | false => exact .absent
    | true => exact .minus
  · cases negative <;> simp [chars]

/-- A text in this form stands for the number that the numeral denotes, whatever its sign is. -/
theorem numberOfText?_chars (hf : f.IsValid) (negative : Bool) :
    Value.numberOfText? (String.ofList (if negative then '-' :: f.chars else f.chars)) =
      some <$> Number.ofNumeral (f.numeral negative) :=
  numberOfText?_of_isSpelt (isSpelt_chars hf negative)

/-! ### Reading in JSON -/

theorem wholeDigits?_whole (hf : f.IsValid) (hzero : f.IsUnpadded) {tail : List Char}
    (htail : ∀ c ∈ tail.head?, isDigit c = false) :
    Json.wholeDigits? (f.whole ++ tail) = some (f.whole, tail) := by
  obtain ⟨hne, hdigits⟩ := hf.whole
  rcases hzero with hzero | hhead
  · rw [hzero]
    rfl
  · obtain ⟨c, ds, hwhole⟩ := List.exists_cons_of_ne_nil hne
    have happend := digits_append f.whole tail hdigits htail
    rw [hwhole] at happend hhead ⊢
    unfold Json.wholeDigits?
    split
    next heq =>
      obtain ⟨rfl, -⟩ := List.cons.inj heq
      exact absurd rfl hhead
    next => simp only [happend, List.isEmpty_cons, Bool.false_eq_true, if_false]

theorem fractionDigits_fraction (hf : f.IsValid) {tail : List Char}
    (htail : ∀ c ∈ tail.head?, isDigit c = false) (hpoint : ∀ c ∈ tail.head?, c ≠ '.') :
    Json.fractionDigits (fractionChars f.fraction ++ tail) = (f.fraction, tail) := by
  cases hfraction : f.fraction with
  | some ds =>
    obtain ⟨hne, hds⟩ := hf.fraction ds hfraction
    simp [fractionChars, Json.fractionDigits, digits_append ds tail hds htail, hne]
  | none =>
    unfold fractionChars Json.fractionDigits
    split
    next heq =>
      rw [List.nil_append] at heq
      exact absurd rfl (hpoint '.' (by rw [heq]; rfl))
    next => rfl

theorem exponent_power (hf : f.IsValid) (hrest : Json.Stops rest) :
    Json.exponent (powerChars f.power ++ rest) =
      (f.power.map fun p => Binary64.signed p.1 (ofDigits p.2), rest) := by
  cases hp : f.power with
  | some p =>
    have hdigits := digits_power hf hp fun c hc => hrest.isDigit hc
    have hne := (hf.power p hp).1
    obtain ⟨minus, ds⟩ := p
    cases minus <;> simp_all [powerChars, Json.exponent, Numeral.sign]
  | none =>
    cases rest with
    | nil => rfl
    | cons c rest =>
      have he : c ≠ 'e' := hrest.head_ne rfl (by decide)
      have hE : c ≠ 'E' := hrest.head_ne rfl (by decide)
      simp [powerChars, Json.exponent, he, hE]

/-- A numeral in this form is read up to its end, whatever follows it. -/
theorem number_chars (hf : f.IsValid) (hzero : f.IsUnpadded) (negative : Bool)
    (hrest : Json.Stops rest) (text : List Char) :
    Json.number text ((if negative then '-' :: f.chars else f.chars) ++ rest) = (do
      return (.number (← Number.ofNumeral (f.numeral negative)), rest)) := by
  have hpower : ∀ c ∈ (powerChars f.power ++ rest).head?, isDigit c = false :=
    isDigit_powerChars (fun c hc => hrest.isDigit hc) f.power
  have hpoint : ∀ c ∈ (powerChars f.power ++ rest).head?, c ≠ '.' := by
    intro c hc
    rcases head_powerChars hc with rfl | hc
    · decide
    · exact hrest.head_ne hc (by decide)
  have hwhole := wholeDigits?_whole hf hzero (isDigit_fractionChars hpower f.fraction)
  have hsplit : f.whole ++ (fractionChars f.fraction ++ (powerChars f.power ++ rest)) =
      f.chars ++ rest := by
    simp only [chars, List.append_assoc]
  have hfraction := fractionDigits_fraction hf hpower hpoint
  rw [hsplit] at hwhole
  -- a digit is no minus sign
  have hminus : ∀ tail, f.chars ++ rest ≠ '-' :: tail := by
    obtain ⟨c, cs, hchars, hc⟩ := exists_head_chars hf
    intro tail heq
    rw [hchars, List.cons_append] at heq
    obtain ⟨rfl, -⟩ := List.cons.inj heq
    exact absurd hc (by decide)
  unfold Json.number
  split
  next minus tail hsign =>
    obtain ⟨rfl, rfl⟩ : minus = negative ∧ tail = f.chars ++ rest := by
      cases negative with
      | true =>
        obtain ⟨rfl, rfl⟩ := Prod.mk.inj hsign
        exact ⟨rfl, rfl⟩
      | false =>
        rw [if_neg Bool.false_ne_true] at hsign
        split at hsign
        next heq => exact absurd heq (hminus _)
        next =>
          obtain ⟨rfl, rfl⟩ := Prod.mk.inj hsign
          exact ⟨rfl, rfl⟩
    simp only [hwhole, hfraction, exponent_power hf hrest, numeral]

end Decimal.Form

/-! ### Integers -/

theorem head_toDigits (n : Nat) (hn : 0 < n) : (Nat.toDigits 10 n).head? ≠ some '0' := by
  induction n using Nat.strongRecOn with
  | ind n ih =>
    by_cases h : n < 10
    · rw [Nat.toDigits_of_lt_base h]
      have hdigit : ∀ d : Fin 10, 0 < d.val → d.val.digitChar ≠ '0' := by decide
      intro heq
      exact hdigit ⟨n, h⟩ hn (Option.some.inj heq)
    · have hhead := ih (n / 10) (by omega) (by omega)
      obtain ⟨c, cs, hdigits⟩ := List.exists_cons_of_ne_nil (@Nat.toDigits_ne_nil (n / 10) 10)
      rw [Nat.toDigits_of_base_le (by decide) (by omega), hdigits]
      rwa [hdigits] at hhead

theorem isUnpadded_toDigits (n : Nat) (fraction : Option (List Char))
    (power : Option (Bool × List Char)) : Form.IsUnpadded ⟨Nat.toDigits 10 n, fraction, power⟩ := by
  rcases Nat.eq_zero_or_pos n with rfl | hn
  · exact .inl (Nat.toDigits_zero 10)
  · exact .inr (head_toDigits n hn)

theorem exists_form_integerText {n : Int} {s : String} (h : integerText n = .ok s) :
    ∃ (negative : Bool) (f : Form), s.toList = (if negative then '-' :: f.chars else f.chars) ∧
      f.IsValid ∧ f.IsUnpadded ∧ Number.ofNumeral (f.numeral negative) = .ok (.int n) := by
  unfold integerText at h
  split at h
  next hbound =>
    cases h
    let f : Form := ⟨Nat.toDigits 10 n.natAbs, none, none⟩
    have hchars : f.chars = Nat.toDigits 10 n.natAbs := by
      simp only [Form.chars, Form.fractionChars, Form.powerChars, List.append_nil, f]
    have hvalue : Number.ofNumeral (f.numeral (decide (n < 0))) = .ok (.int n) :=
      ofNumeral_toDigits n hbound
    have hvalid : f.IsValid := ⟨areDigits_toDigits _, by simp [f], by simp [f]⟩
    refine ⟨decide (n < 0), f, ?_, hvalid, isUnpadded_toDigits _ _ _, hvalue⟩
    simp only [String.toList_ofList, hchars, decide_eq_true_eq]
  next => cases h

/-! ### Doubles -/

namespace Decimal

def plainForm (digits : List Char) (point : Int) : Form :=
  if point ≤ 0 then ⟨['0'], some (List.replicate (-point).toNat '0' ++ digits), none⟩
  else
    let before := digits.take point.toNat
    let after := digits.drop point.toNat
    ⟨before ++ List.replicate (point.toNat - before.length) '0',
      some (if after.isEmpty then ['0'] else after), none⟩

def scientificForm (digits : List Char) (exponent : Int) : Form :=
  let power := Nat.toDigits 10 exponent.natAbs
  ⟨digits.take 1, if digits.length ≤ 1 then none else some (digits.drop 1),
    some (decide (exponent < 0), List.replicate (2 - power.length) '0' ++ power)⟩

/-- The parts of the text of a positive decimal. -/
def form (d : Decimal) : Form :=
  let digits := Nat.toDigits 10 d.coefficient
  let point := (digits.length : Int) + d.exponent
  if -4 < point ∧ point ≤ 16 then plainForm digits point else scientificForm digits (point - 1)

theorem chars_plainForm (digits : List Char) (point : Int) :
    (plainForm digits point).chars = plainText digits point := by
  unfold plainForm plainText
  split
  · simp [Form.chars, Form.fractionChars, Form.powerChars]
  · simp [Form.chars, Form.fractionChars, Form.powerChars]

theorem chars_scientificForm (digits : List Char) (exponent : Int) :
    (scientificForm digits exponent).chars = scientificText digits exponent := by
  unfold scientificForm scientificText
  by_cases hlength : digits.length ≤ 1
  · simp [Form.chars, Form.fractionChars, Form.powerChars, hlength]
  · simp [Form.chars, Form.fractionChars, Form.powerChars, hlength]

theorem chars_form (d : Decimal) : d.form.chars = d.text := by
  unfold form text
  dsimp only
  split
  · exact chars_plainForm _ _
  · exact chars_scientificForm _ _

variable {digits : List Char} (hdigits : AreDigits digits)
include hdigits

theorem isValid_plainForm (point : Int) : (plainForm digits point).IsValid := by
  unfold plainForm
  split
  next =>
    refine ⟨areDigits_zero, fun ds hds => ?_, nofun⟩
    obtain rfl : _ = ds := Option.some.inj hds
    exact hdigits.zeros_append _
  next hpoint =>
    refine ⟨(hdigits.take _ (by omega)).append_zeros _, fun ds hds => ?_, nofun⟩
    obtain rfl : _ = ds := Option.some.inj hds
    split
    next => exact areDigits_zero
    next hafter =>
      rw [List.isEmpty_iff] at hafter
      exact hdigits.drop _ hafter

theorem isValid_scientificForm (exponent : Int) : (scientificForm digits exponent).IsValid := by
  unfold scientificForm
  refine ⟨hdigits.take 1 (by decide), fun ds hds => ?_, fun p hp => ?_⟩
  · dsimp only at hds
    split at hds
    next => cases hds
    next hlength =>
      cases hds
      exact hdigits.drop 1 (by rwa [Ne, List.drop_eq_nil_iff])
  · obtain rfl : _ = p := Option.some.inj hp
    exact (areDigits_toDigits _).zeros_append _

theorem isUnpadded_plainForm (hhead : digits.head? ≠ some '0') (point : Int) :
    (plainForm digits point).IsUnpadded := by
  unfold plainForm
  split
  next => exact .inl rfl
  next hpoint =>
    right
    obtain ⟨c, cs, rfl⟩ := List.exists_cons_of_ne_nil hdigits.1
    obtain ⟨n, hn⟩ : ∃ n, point.toNat = n + 1 := ⟨point.toNat - 1, by omega⟩
    rw [hn]
    exact hhead

theorem isUnpadded_scientificForm (exponent : Int) :
    (scientificForm digits exponent).IsUnpadded := by
  unfold scientificForm Form.IsUnpadded
  obtain ⟨c, cs, rfl⟩ := List.exists_cons_of_ne_nil hdigits.1
  by_cases hc : c = '0'
  · left
    rw [hc]
    rfl
  · exact .inr fun h => hc (Option.some.inj h)

omit hdigits in
theorem mem_plainForm {point : Int} {c : Char}
    (hc : c ∈ (plainForm digits point).whole ++ (plainForm digits point).fraction.getD []) :
    c = '0' ∨ c ∈ digits := by
  unfold plainForm at hc
  split at hc
  next =>
    simp only [Option.getD_some, List.mem_append, List.mem_replicate, List.mem_singleton] at hc
    rcases hc with hc | ⟨-, hc⟩ | hc
    · exact .inl hc
    · exact .inl hc
    · exact .inr hc
  next =>
    dsimp only at hc
    simp only [Option.getD_some, List.mem_append, List.mem_replicate] at hc
    rcases hc with (hc | ⟨-, hc⟩) | hc
    · exact .inr (List.mem_of_mem_take hc)
    · exact .inl hc
    · split at hc
      · exact .inl (List.mem_singleton.mp hc)
      · exact .inr (List.mem_of_mem_drop hc)

omit hdigits in
theorem mem_scientificForm {exponent : Int} {c : Char}
    (hc : c ∈ (scientificForm digits exponent).whole ++
      (scientificForm digits exponent).fraction.getD []) : c ∈ digits := by
  unfold scientificForm at hc
  rcases List.mem_append.mp hc with hc | hc
  · exact List.mem_of_mem_take hc
  · dsimp only at hc
    split at hc
    · exact absurd hc List.not_mem_nil
    · exact List.mem_of_mem_drop hc

omit hdigits

theorem isValid_form (d : Decimal) : d.form.IsValid := by
  unfold form
  dsimp only
  split
  · exact isValid_plainForm (areDigits_toDigits _) _
  · exact isValid_scientificForm (areDigits_toDigits _) _

theorem isUnpadded_form (d : Decimal) (h : 0 < d.coefficient) : d.form.IsUnpadded := by
  unfold form
  dsimp only
  split
  · exact isUnpadded_plainForm (areDigits_toDigits _) (head_toDigits _ h) _
  · exact isUnpadded_scientificForm (areDigits_toDigits _) _

theorem isInteger_form (d : Decimal) (negative : Bool) :
    (d.form.numeral negative).isInteger = false := by
  unfold form
  dsimp only
  split
  · unfold plainForm
    split <;> rfl
  · exact Bool.and_false _

theorem ofDigits_eq_zero {ds : List Char} (h : ∀ c ∈ ds, c = '0') : ofDigits ds = 0 := by
  rw [List.eq_replicate_of_mem h]
  induction ds.length with
  | zero => rfl
  | succ n ih => exact ih

/-- A decimal without a coefficient denotes a zero, however it is written. -/
theorem toFloat_form (d : Decimal) (h : d.coefficient = 0) (negative : Bool) :
    (d.form.numeral negative).toFloat = Binary64.nearest negative 0 1 := by
  have hzeros : ∀ c ∈ d.form.whole ++ d.form.fraction.getD [], c = '0' := by
    have hdigit : ∀ c ∈ Nat.toDigits 10 d.coefficient, c = '0' := by
      rw [h, Nat.toDigits_zero]
      exact fun c hc => List.mem_singleton.mp hc
    intro c hc
    unfold form at hc
    dsimp only at hc
    split at hc
    · exact (mem_plainForm hc).elim id (hdigit c)
    · exact hdigit c (mem_scientificForm hc)
  have hzero := ofDigits_eq_zero hzeros
  unfold Numeral.toFloat Form.numeral toFloat
  dsimp only
  rw [if_pos (.inl hzero)]

theorem ofFloat_nearest_zero (negative : Bool) :
    Binary64.ofFloat (Binary64.nearest negative 0 1) = .finite negative 0 (-1074) := by
  cases negative <;> decide +kernel

/-- Whether the text of a double is read as that double. -/
def SurvivesText (x : Float) : Prop :=
  (Binary64.ofFloat x).isFinite = true →
    Value.numberOfText? (floatText x) = .ok (some (.float x))

theorem exists_form_floatText {x : Float} (hfinite : (Binary64.ofFloat x).isFinite = true)
    (h : SurvivesText x) :
    ∃ (negative : Bool) (f : Form),
      (floatText x).toList = (if negative then '-' :: f.chars else f.chars) ∧
      f.IsValid ∧ f.IsUnpadded ∧ Number.ofNumeral (f.numeral negative) = .ok (.float x) := by
  have htext := h hfinite
  unfold floatText at htext ⊢
  cases hx : Binary64.ofFloat x with
  | nan => rw [hx] at hfinite; cases hfinite
  | infinity negative => rw [hx] at hfinite; cases hfinite
  | finite negative m e =>
    rw [hx] at htext
    dsimp only at htext ⊢
    have hvalue : ∀ f : Form, f.IsValid → (if m = 0 then ['0', '.', '0'] else
        (shortest m e).text) = f.chars → Number.ofNumeral (f.numeral negative) = .ok (.float x) := by
      intro f hf hchars
      rw [hchars, Form.numberOfText?_chars hf] at htext
      cases hn : Number.ofNumeral (f.numeral negative) with
      | error fault =>
        rw [hn] at htext
        cases htext
      | ok n =>
        rw [hn] at htext
        cases htext
        rfl
    rw [String.toList_ofList]
    by_cases hm : m = 0
    · let f : Form := plainForm ['0'] 0
      have hf : f.IsValid := isValid_plainForm areDigits_zero 0
      rw [if_pos hm] at hvalue ⊢
      exact ⟨negative, f, rfl, hf, .inl rfl, hvalue f hf rfl⟩
    · have hf := isValid_form (shortest m e)
      rw [if_neg hm] at hvalue ⊢
      have hvalue := hvalue _ hf (chars_form _).symm
      have hcoefficient : 0 < (shortest m e).coefficient := by
        rcases Nat.eq_zero_or_pos (shortest m e).coefficient with hzero | hpos
        · -- without a coefficient the text would be that of a zero
          rw [Number.ofNumeral, isInteger_form, if_neg Bool.false_ne_true,
            toFloat_form _ hzero] at hvalue
          cases hvalue
          rw [ofFloat_nearest_zero] at hx
          cases hx
          exact absurd rfl hm
        · exact hpos
      exact ⟨negative, (shortest m e).form, by rw [chars_form], hf, isUnpadded_form _ hcoefficient,
        hvalue⟩

end Decimal

end ProseGrammar
