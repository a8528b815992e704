import ProseGrammar.Decimal.Numeral
import ProseGrammar.Proofs.Token.Pieces

/-!
# The form of numerals

A numeral is an optional sign, then digits with at most one point, which may stand first or last,
and then an optional power of ten with a sign of its own. Reading takes exactly the texts of this
form, and the parts that it gives are those of the form; so a text has the form in one way only.
-/

namespace ProseGrammar

/-! ### Digits -/

namespace Decimal

def AreDigits (ds : List Char) : Prop :=
  ds ≠ [] ∧ ∀ c ∈ ds, isDigit c = true

/-- The sum of the digits, each times the power of ten of its place. -/
def positional : List Char → Nat
  | [] => 0
  | c :: ds => (c.toNat - '0'.toNat) * 10 ^ ds.length + positional ds

theorem foldl_eq_positional (ds : List Char) (n : Nat) :
    ds.foldl (fun n c => 10 * n + (c.toNat - '0'.toNat)) n =
      n * 10 ^ ds.length + positional ds := by
  induction ds generalizing n with
  | nil => simp [positional]
  | cons c ds ih =>
    have hpow : 10 * n * 10 ^ ds.length = n * 10 ^ (c :: ds).length := by
      rw [List.length_cons, Nat.pow_succ', Nat.mul_comm 10 n, Nat.mul_assoc]
    rw [List.foldl_cons, ih, positional, Nat.add_mul, hpow, Nat.add_assoc]

theorem ofDigits_eq_positional (ds : List Char) : ofDigits ds = positional ds := by
  rw [ofDigits, foldl_eq_positional, Nat.zero_mul, Nat.zero_add]

end Decimal

theorem digits_append (ds rest : List Char) (hds : ∀ c ∈ ds, Decimal.isDigit c = true)
    (hr : ∀ c ∈ rest.head?, Decimal.isDigit c = false) : Numeral.digits (ds ++ rest) = (ds, rest) := by
  rw [Numeral.digits, Piece.takeWhile_append_stop _ ds rest hds hr,
    Piece.dropWhile_append_stop _ ds rest hds hr]

namespace Numeral

open Decimal

variable {negative : Bool} {text rest : List Char}

theorem digits_of_digits (ds : List Char) (hds : ∀ c ∈ ds, isDigit c = true) :
    digits ds = (ds, []) := by
  have happend := digits_append ds [] hds nofun
  rwa [List.append_nil] at happend

theorem exists_digits (cs : List Char) :
    ∃ ds rest, digits cs = (ds, rest) ∧ cs = ds ++ rest ∧ ∀ c ∈ ds, isDigit c = true := by
  refine ⟨_, _, rfl, List.takeWhile_append_dropWhile.symm, ?_⟩
  exact List.all_eq_true.mp List.all_takeWhile

/-! ### Signs -/

/-- The spellings of a sign; true stands for minus. -/
inductive IsSign : Bool → List Char → Prop
  | absent : IsSign false []
  | plus : IsSign false ['+']
  | minus : IsSign true ['-']

theorem sign_append (h : IsSign negative text) (hrest : ∀ c ∈ rest.head?, c ≠ '-' ∧ c ≠ '+') :
    sign (text ++ rest) = (negative, rest) := by
  cases h with
  | minus => rfl
  | plus => rfl
  | absent =>
    rw [List.nil_append]
    unfold sign
    split
    next => exact absurd rfl (hrest '-' rfl).1
    next => exact absurd rfl (hrest '+' rfl).2
    next => rfl

theorem exists_sign (cs : List Char) :
    ∃ negative text rest, sign cs = (negative, rest) ∧ cs = text ++ rest ∧ IsSign negative text := by
  unfold sign
  split
  · exact ⟨true, ['-'], _, rfl, rfl, .minus⟩
  · exact ⟨false, ['+'], _, rfl, rfl, .plus⟩
  · exact ⟨false, [], _, rfl, rfl, .absent⟩

theorem ne_sign_of_isDigit {c : Char} (h : isDigit c = true) : c ≠ '-' ∧ c ≠ '+' := by
  constructor <;>
  · rintro rfl
    exact absurd h (by decide)

/-! ### Digits with a point -/

/-- Digits alone, digits and a point with or without digits behind it, or a point and digits: what is
in front of the point, what is behind it, and the text. -/
inductive IsMantissa : List Char → Option (List Char) → List Char → Prop
  | whole {ds : List Char} (hds : AreDigits ds) : IsMantissa ds none ds
  | point {ds es : List Char} (hds : AreDigits ds) (hes : ∀ c ∈ es, isDigit c = true) :
      IsMantissa ds (some es) (ds ++ '.' :: es)
  | fraction {es : List Char} (hes : AreDigits es) : IsMantissa [] (some es) ('.' :: es)

variable {whole : List Char} {fraction : Option (List Char)}

theorem pointed_of_point (es rest : List Char) (hes : ∀ c ∈ es, isDigit c = true)
    (hrest : ∀ c ∈ rest.head?, isDigit c = false) :
    pointed ('.' :: (es ++ rest)) = (some es, rest) := by
  rw [pointed, digits_append es rest hes hrest]

theorem pointed_of_other (h : ∀ c ∈ rest.head?, c ≠ '.') : pointed rest = (none, rest) := by
  unfold pointed
  split
  next => exact absurd rfl (h '.' rfl)
  next => rfl

theorem read_mantissa (h : IsMantissa whole fraction text)
    (hdigit : ∀ c ∈ rest.head?, isDigit c = false) (hpoint : ∀ c ∈ rest.head?, c ≠ '.') :
    ∃ tail, digits (text ++ rest) = (whole, tail) ∧ pointed tail = (fraction, rest) := by
  have hstop : ∀ cs : List Char, ∀ c ∈ ('.' :: cs).head?, isDigit c = false := by
    intro cs c hc
    obtain rfl : '.' = c := Option.some.inj hc
    decide
  cases h with
  | whole hds => exact ⟨rest, digits_append _ rest hds.2 hdigit, pointed_of_other hpoint⟩
  | @point _ es hds hes =>
    refine ⟨'.' :: (es ++ rest), ?_, pointed_of_point es rest hes hdigit⟩
    rw [List.append_assoc]
    exact digits_append whole _ hds.2 (hstop _)
  | @fraction es hes =>
    exact ⟨'.' :: (es ++ rest), digits_append [] _ nofun (hstop _),
      pointed_of_point es rest hes.2 hdigit⟩

theorem exists_mantissa (cs : List Char) {tail : List Char} (hdigits : digits cs = (whole, tail))
    (hpointed : pointed tail = (fraction, rest))
    (hne : (whole.isEmpty && (fraction.getD []).isEmpty) = false) :
    ∃ text, cs = text ++ rest ∧ IsMantissa whole fraction text := by
  obtain ⟨ds, after, hds, rfl, hwhole⟩ := exists_digits cs
  obtain ⟨rfl, rfl⟩ := Prod.mk.inj (hdigits.symm.trans hds)
  unfold pointed at hpointed
  split at hpointed
  next more =>
    obtain ⟨es, after, hes, rfl, hfraction⟩ := exists_digits more
    rw [hes] at hpointed
    obtain ⟨rfl, rfl⟩ := Prod.mk.inj hpointed
    by_cases hempty : whole = []
    · subst hempty
      exact ⟨'.' :: es, rfl, .fraction ⟨by simpa using hne, hfraction⟩⟩
    · exact ⟨whole ++ '.' :: es, by simp, .point ⟨hempty, hwhole⟩ hfraction⟩
  next =>
    obtain ⟨rfl, rfl⟩ := Prod.mk.inj hpointed
    exact ⟨whole, rfl, .whole ⟨by simpa using hne, hwhole⟩⟩

/-! ### Powers of ten -/

/-- Nothing, or an e in either case, a sign or none, and digits: the value, and the text. -/
inductive IsPower : Option Int → List Char → Prop
  | absent : IsPower none []
  | present {e : Char} {negative : Bool} {text ds : List Char} (he : e = 'e' ∨ e = 'E')
      (hsign : IsSign negative text) (hds : AreDigits ds) :
      IsPower (some (Binary64.signed negative (positional ds))) (e :: (text ++ ds))

theorem power?_eq_some_iff (cs : List Char) (p : Option Int) :
    power? cs = some p ↔ IsPower p cs := by
  constructor
  · intro h
    cases cs with
    | nil =>
      obtain rfl : none = p := Option.some.inj h
      exact .absent
    | cons e more =>
      obtain ⟨negative, text, after, hsign, rfl, htext⟩ := exists_sign more
      obtain ⟨ds, rest, hdigits, rfl, hds⟩ := exists_digits after
      simp only [power?, hsign, hdigits] at h
      split at h
      next hform =>
        simp only [Bool.and_eq_true, Bool.or_eq_true, beq_iff_eq, Bool.not_eq_true',
          List.isEmpty_eq_false_iff, List.isEmpty_iff] at hform
        obtain ⟨⟨he, hne⟩, rfl⟩ := hform
        obtain rfl := Option.some.inj h
        rw [List.append_nil, ofDigits_eq_positional]
        exact .present he htext ⟨hne, hds⟩
      next => cases h
  · intro h
    cases h with
    | absent => rfl
    | @present e negative text ds he htext hds =>
      have hsign : sign (text ++ ds) = (negative, ds) := by
        refine sign_append htext fun c hc => ne_sign_of_isDigit (hds.2 c (List.mem_of_mem_head? hc))
      have he' : (e == 'e' || e == 'E') = true := by simpa using he
      simp [power?, hsign, digits_of_digits ds hds.2, he', hds.1, ofDigits_eq_positional]

theorem head_power {p : Option Int} (h : IsPower p text) :
    ∀ c ∈ text.head?, isDigit c = false ∧ c ≠ '.' := by
  intro c hc
  cases h with
  | absent => cases hc
  | present he =>
    obtain rfl := Option.some.inj hc
    rcases he with rfl | rfl <;> decide

/-! ### Numerals -/

/-- Whether a text is a numeral, spelt out from its parts. -/
def IsSpelt (n : Numeral) (cs : List Char) : Prop :=
  ∃ sign mantissa power, IsSign n.negative sign ∧ IsMantissa n.whole n.fraction mantissa ∧
    IsPower n.power power ∧ cs = sign ++ (mantissa ++ power)

theorem head_mantissa (h : IsMantissa whole fraction text) :
    ∀ c ∈ (text ++ rest).head?, c ≠ '-' ∧ c ≠ '+' := by
  intro c hc
  cases h with
  | fraction =>
    obtain rfl : '.' = c := Option.some.inj hc
    decide
  | whole hds =>
    obtain ⟨d, ds, rfl⟩ := List.exists_cons_of_ne_nil hds.1
    obtain rfl := Option.some.inj hc
    exact ne_sign_of_isDigit (hds.2 _ List.mem_cons_self)
  | point hds =>
    obtain ⟨d, ds, rfl⟩ := List.exists_cons_of_ne_nil hds.1
    obtain rfl := Option.some.inj hc
    exact ne_sign_of_isDigit (hds.2 _ List.mem_cons_self)

theorem isEmpty_of_mantissa (h : IsMantissa whole fraction text) :
    (whole.isEmpty && (fraction.getD []).isEmpty) = false := by
  cases h with
  | whole hds => simp [hds.1]
  | point hds => simp [hds.1]
  | fraction hes => simp [hes.1]

theorem ofChars?_of_isSpelt (n : Numeral) (cs : List Char) (h : n.IsSpelt cs) :
    ofChars? cs = some n := by
  obtain ⟨sign, mantissa, power, hsign, hmantissa, hpower, rfl⟩ := h
  obtain ⟨tail, hdigits, hpointed⟩ := read_mantissa hmantissa (fun c hc => (head_power hpower c hc).1)
    fun c hc => (head_power hpower c hc).2
  simp only [ofChars?, sign_append hsign (head_mantissa hmantissa), hdigits, hpointed,
    (power?_eq_some_iff power n.power).mpr hpower, isEmpty_of_mantissa hmantissa, Bool.false_eq_true,
    if_false]

theorem isSpelt_of_ofChars? (n : Numeral) (cs : List Char) (h : ofChars? cs = some n) :
    n.IsSpelt cs := by
  obtain ⟨negative, sign, unsigned, hsign, rfl, hspelt⟩ := exists_sign cs
  cases hdigits : digits unsigned with
  | mk whole tail =>
    cases hpointed : pointed tail with
    | mk fraction rest =>
      simp only [ofChars?, hsign, hdigits, hpointed] at h
      split at h
      next power hpower =>
        split at h
        next => cases h
        next hne =>
          rw [Bool.not_eq_true] at hne
          obtain ⟨mantissa, rfl, hmantissa⟩ := exists_mantissa unsigned hdigits hpointed hne
          obtain rfl := Option.some.inj h
          have hrest := (power?_eq_some_iff rest power).mp hpower
          exact ⟨sign, mantissa, rest, hspelt, hmantissa, hrest, rfl⟩
      next => cases h

theorem ofChars?_eq_some_iff (cs : List Char) (n : Numeral) :
    ofChars? cs = some n ↔ n.IsSpelt cs :=
  ⟨isSpelt_of_ofChars? n cs, ofChars?_of_isSpelt n cs⟩

end Numeral

end ProseGrammar
