import ProseGrammar.Value

/-!
# Doubles and their bits

A double is determined by its bits, and a comparison that finds two nonzero finite doubles equal
finds them identical. The double of a positive integer below `2 ^ 53` is the one with that exact
value, so such integers survive being written and read.
-/

namespace ProseGrammar

open Float.Model Float.Model.UnpackedFloat

/-! ### Packing -/

theorem toBitVec_ofBitVec (v : BitVec 1) : (Sign.ofBitVec v).toBitVec = v := by
  revert v
  decide

theorem packComponents_unpack (b : BitVec Format.binary64.numBits) :
    packComponents Format.binary64 (Sign.ofBitVec (unpackSign b)) (unpackExponent b)
      (unpackMantissa b) = b := by
  unfold packComponents
  rw [toBitVec_ofBitVec]
  unfold unpackSign unpackExponent unpackMantissa
  apply BitVec.eq_of_getLsbD_eq
  intro i hi
  have h64 : i < 64 := hi
  simp only [BitVec.getLsbD_append, BitVec.getLsbD_cast, BitVec.getLsbD_extractLsb]
  by_cases hfraction : i < 52
  · simp [hfraction]
  by_cases hfield : i - 52 < 11
  · have hi : 52 + (i - 52) = i := by omega
    simp [hfraction, hfield, hi]
  · have hi : 63 + (i - 52 - 11) = i := by omega
    simp [hfraction, hfield, hi]
    omega

theorem toNat_unpackMantissa (b : BitVec Format.binary64.numBits) :
    (unpackMantissa b).toNat = b.toNat % 2 ^ 52 := by
  unfold unpackMantissa
  simp

theorem toNat_unpackExponent (b : BitVec Format.binary64.numBits) :
    (unpackExponent b).toNat = b.toNat / 2 ^ 52 % 2 ^ 11 := by
  unfold unpackExponent
  simp [Nat.shiftRight_eq_div_pow]

theorem toNat_unpackSign (b : BitVec Format.binary64.numBits) :
    (unpackSign b).toNat = b.toNat / 2 ^ 63 := by
  have hb : b.toNat < 2 ^ 64 := b.isLt
  unfold unpackSign
  simp [Nat.shiftRight_eq_div_pow]
  omega

theorem pack_finite (s : Sign) (m : Nat) (e : Int) (hm : 0 < m) (field : Nat)
    (hf : field + 1 < 2 ^ 11) (he : e + 1075 = field) :
    UnpackedFloat.pack Format.binary64 (.finite s m e hm) =
      if m.log2 = 52 then
        packComponents Format.binary64 s (BitVec.ofNat 11 field) (BitVec.ofNat 52 m)
      else packComponents Format.binary64 s 0#11 (BitVec.ofNat 52 m) := by
  have hbias : (e + (Format.binary64.exponentBias : Int) +
      (Format.binary64.mantissaBitsWithoutImplicit : Int)).toNat = field := by
    have h1023 : (Format.binary64.exponentBias : Int) = 1023 := by decide
    have h52 : (Format.binary64.mantissaBitsWithoutImplicit : Int) = 52 := by decide
    rw [h1023, h52]
    omega
  have hbits : Format.binary64.mantissaBits = 53 := by decide
  have hrange : ¬2 ^ Format.binary64.exponentBits ≤ field + 1 := by
    show ¬2 ^ 11 ≤ field + 1
    omega
  show (if 2 ^ Format.binary64.exponentBits ≤ (e + (Format.binary64.exponentBias : Int) +
      (Format.binary64.mantissaBitsWithoutImplicit : Int)).toNat + 1 then _
    else if m.log2 + 1 = Format.binary64.mantissaBits then
      packComponents Format.binary64 s (BitVec.ofNat _ (e + (Format.binary64.exponentBias : Int) +
        (Format.binary64.mantissaBitsWithoutImplicit : Int)).toNat) (BitVec.ofNat _ m)
    else _) = _
  rw [hbias, if_neg hrange, hbits]
  by_cases h : m.log2 = 52
  · rw [if_pos h, if_pos (by omega)]
  · rw [if_neg h, if_neg (by omega)]

theorem toNat_append_one (v : BitVec 52) : (1#1 ++ v).toNat = 2 ^ 52 + v.toNat := by
  have hv : v.toNat < 2 ^ 52 := v.isLt
  rw [BitVec.toNat_append, ← Nat.shiftLeft_add_eq_or_of_lt hv]
  rfl

theorem pack_unpack (b : BitVec Format.binary64.numBits) (hv : Format.binary64.Valid b) :
    UnpackedFloat.pack Format.binary64 (UnpackedFloat.unpack Format.binary64 b) = b := by
  have hb := packComponents_unpack b
  have hm : (unpackMantissa b).toNat < 2 ^ 52 := (unpackMantissa b).isLt
  have he : (unpackExponent b).toNat < 2 ^ 11 := (unpackExponent b).isLt
  have hbias : (Format.binary64.exponentBias : Int) +
      (Format.binary64.mantissaBitsWithoutImplicit : Int) = 1075 := by decide
  unfold UnpackedFloat.unpack
  rw [hbias]
  dsimp only
  by_cases hinf : unpackExponent b = -1#_
  · rw [if_pos hinf]
    by_cases hzero : unpackMantissa b = 0#_
    · rw [if_pos hzero]
      rw [hinf, hzero] at hb
      exact hb
    · rw [if_neg hzero]
      exact (hv.eq_packedNaN hinf hzero).symm
  rw [if_neg hinf]
  by_cases hsub : unpackExponent b = 0#_
  · rw [if_pos hsub]
    by_cases hzero : unpackMantissa b = 0#_
    · rw [dif_pos hzero]
      rw [hsub, hzero] at hb
      exact hb
    · have hne : (unpackMantissa b).toNat ≠ 0 := fun h => hzero (BitVec.eq_of_toNat_eq h)
      have hlog : (unpackMantissa b).toNat.log2 < 52 := (Nat.log2_lt hne).mpr hm
      have hfield : (unpackExponent b).toNat = 0 := by
        rw [hsub]
        rfl
      rw [dif_neg hzero, pack_finite _ _ _ _ 1 (by decide) (by omega), if_neg (by omega),
        BitVec.ofNat_toNat, BitVec.setWidth_eq, ← hsub]
      exact hb
  · rw [if_neg hsub]
    have hmantissa := toNat_append_one (unpackMantissa b)
    have hlog : (1#1 ++ unpackMantissa b).toNat.log2 = 52 := by
      rw [hmantissa, Nat.log2_eq_iff (by omega)]
      omega
    have hne : (unpackExponent b).toNat ≠ 2047 := fun h => hinf (BitVec.eq_of_toNat_eq h)
    have hfraction : BitVec.ofNat 52 (1#1 ++ unpackMantissa b).toNat = unpackMantissa b := by
      apply BitVec.eq_of_toNat_eq
      rw [BitVec.toNat_ofNat, hmantissa]
      omega
    rw [pack_finite _ _ _ _ (unpackExponent b).toNat (by omega) (by omega), if_pos hlog,
      BitVec.ofNat_toNat, BitVec.setWidth_eq, hfraction]
    exact hb

theorem ofBits_toBits (x : Float) : Float.ofBits x.toBits = x := by
  obtain ⟨⟨bits, hv⟩⟩ := x
  have h := pack_unpack bits.toBitVec hv
  show Float.ofModel ⟨UInt64.ofBitVec (UnpackedFloat.pack Format.binary64
    (UnpackedFloat.unpack Format.binary64 bits.toBitVec)), _⟩ = _
  congr 2
  rw [h]

theorem eq_of_unpack (x y : Float) (h : x.toModel.unpack = y.toModel.unpack) : x = y := by
  have hx := ofBits_toBits x
  have hy := ofBits_toBits y
  have hbits : Float.ofBits x.toBits = Float.ofBits y.toBits := by
    show Float.ofModel (Float.Model.pack x.toModel.unpack) =
      Float.ofModel (Float.Model.pack y.toModel.unpack)
    rw [h]
  rw [← hx, ← hy, hbits]

/-! ### NaN and the infinities -/

theorem eq_of_toBits {x y : Float} (h : x.toBits = y.toBits) : x = y := by
  rw [← ofBits_toBits x, h, ofBits_toBits]

/-- There is one NaN, since its bits are always the same. -/
theorem eq_nan_of_ofFloat {x : Float} (h : Binary64.ofFloat x = .nan) : x = 0 / 0 := by
  unfold Binary64.ofFloat at h
  dsimp only at h
  split at h
  next hfield =>
    split at h
    · cases h
    next hfraction =>
      apply eq_of_toBits
      let b : BitVec Format.binary64.numBits := x.toBits.toBitVec
      have hexponent : unpackExponent b = (-1#_) :=
        BitVec.eq_of_toNat_eq ((toNat_unpackExponent b).trans hfield)
      have hmantissa : unpackMantissa b ≠ 0#_ := by
        intro hzero
        have hnat := toNat_unpackMantissa b
        rw [hzero] at hnat
        exact hfraction hnat.symm
      have hpacked : b = packedNaN Format.binary64 :=
        x.toModel.valid.eq_packedNaN hexponent hmantissa
      have hnan : packedNaN Format.binary64 = (0 / 0 : Float).toBits.toBitVec := by decide +kernel
      exact UInt64.toBitVec_inj.mp (hpacked.trans hnan)
  next =>
    split at h <;> cases h

theorem eq_infinity_of_ofFloat {x : Float} {negative : Bool}
    (h : Binary64.ofFloat x = .infinity negative) : x = if negative then -1 / 0 else 1 / 0 := by
  have hbits : x.toBits.toNat < 2 ^ 64 := x.toBits.toBitVec.isLt
  unfold Binary64.ofFloat at h
  dsimp only at h
  split at h
  next hfield =>
    split at h
    next hfraction =>
      cases h
      apply eq_of_toBits
      apply UInt64.toNat_inj.mp
      by_cases hsign : 2 ^ 63 ≤ x.toBits.toNat
      · have hnat : x.toBits.toNat = 4095 * 2 ^ 52 := by omega
        rw [decide_eq_true hsign, hnat]
        decide +kernel
      · have hnat : x.toBits.toNat = 2047 * 2 ^ 52 := by omega
        rw [decide_eq_false hsign, hnat]
        decide +kernel
    · cases h
  next =>
    split at h <;> cases h

/-! ### Comparing with one -/

theorem toBits_one : (1 : Float).toBits = 0x3FF0000000000000 := by
  decide +kernel

theorem unpack_one : ∃ h, (1 : Float).toModel.unpack = .finite .positive (2 ^ 52) (-52) h := by
  have hbits : ∃ h, UnpackedFloat.unpack Format.binary64 0x3FF0000000000000#64 =
      .finite .positive (2 ^ 52) (-52) h := ⟨by decide, by rfl⟩
  obtain ⟨h, hbits⟩ := hbits
  refine ⟨h, ?_⟩
  show UnpackedFloat.unpack Format.binary64 (1 : Float).toBits.toBitVec = _
  rw [toBits_one]
  exact hbits

theorem eq_one_of_beq (w : Float) (h : (w == 1) = true) : w = 1 := by
  apply eq_of_unpack
  obtain ⟨hone, hunpack⟩ := unpack_one
  have hcompare : (w.toModel.unpack.compare (1 : Float).toModel.unpack == some .eq) = true := h
  rw [hunpack] at hcompare ⊢
  cases hw : w.toModel.unpack with
  | notANumber => rw [hw] at hcompare; cases hcompare
  | infinity s => rw [hw] at hcompare; cases s <;> cases hcompare
  | zero s => rw [hw] at hcompare; cases hcompare
  | finite s m e hm =>
    rw [hw] at hcompare
    cases s with
    | negative => cases hcompare
    | positive =>
      have heq : (compare e (-52)).then (compare m (2 ^ 52)) = .eq :=
        Option.some.inj (eq_of_beq hcompare)
      rw [Ordering.then_eq_eq, Int.compare_eq_eq, Nat.compare_eq_eq] at heq
      obtain ⟨rfl, rfl⟩ := heq
      rfl

theorem eq_one_of_equal (w : Float) (h : (Value.float w).equal (.float 1) = true) : w = 1 := by
  apply eq_one_of_beq
  have hcompare : ((Number.float w).compare? (.float 1) == some .eq) = true := h
  simp only [Number.compare?] at hcompare
  split at hcompare
  · cases hcompare
  split at hcompare
  · cases hcompare
  split at hcompare
  · assumption
  · cases hcompare

/-! ### Integers as doubles -/

/-- The bits of a positive finite double in its parts. -/
theorem ofFloat_finite (x : Float) (m : Nat) (e : Int)
    (h : Binary64.ofFloat x = .finite false m e) :
    x.toBits.toNat < 2 ^ 63 ∧
      ((x.toBits.toNat / 2 ^ 52 = 0 ∧ m = x.toBits.toNat % 2 ^ 52 ∧ e = -1074) ∨
        (0 < x.toBits.toNat / 2 ^ 52 ∧ x.toBits.toNat / 2 ^ 52 < 2047 ∧
          m = 2 ^ 52 + x.toBits.toNat % 2 ^ 52 ∧ e = (x.toBits.toNat / 2 ^ 52 : Int) - 1075)) := by
  have hbits : x.toBits.toNat < 2 ^ 64 := x.toBits.toBitVec.isLt
  unfold Binary64.ofFloat at h
  simp only at h
  split at h
  · split at h <;> cases h
  next hnot =>
    split at h
    next hzero =>
      simp only [Binary64.finite.injEq, decide_eq_false_iff_not, Binary64.leastExponent] at h
      obtain ⟨hsign, hm, he⟩ := h
      refine ⟨by omega, .inl ⟨by omega, hm.symm, he.symm⟩⟩
    next hpos =>
      simp only [Binary64.finite.injEq, decide_eq_false_iff_not] at h
      obtain ⟨hsign, hm, he⟩ := h
      refine ⟨by omega, .inr ⟨by omega, by omega, hm.symm, by omega⟩⟩

theorem finite_congr {s : Sign} {m m' : Nat} {e e' : Int} {h : 0 < m} {h' : 0 < m'}
    (hm : m = m') (he : e = e') : UnpackedFloat.finite s m e h = .finite s m' e' h' := by
  subst hm he
  rfl

theorem unpack_of_finite (x : Float) (m : Nat) (e : Int)
    (h : Binary64.ofFloat x = .finite false m e) (hm : 0 < m) :
    ∃ hp, x.toModel.unpack = .finite .positive m e hp := by
  obtain ⟨hsign, hparts⟩ := ofFloat_finite x m e h
  let b : BitVec Format.binary64.numBits := x.toBits.toBitVec
  have hmantissa := toNat_unpackMantissa b
  have hexponent := toNat_unpackExponent b
  have hbits : b.toNat = x.toBits.toNat := rfl
  rw [hbits] at hmantissa hexponent
  have hpositive : Sign.ofBitVec (unpackSign b) = .positive := by
    have hzero : unpackSign b = 0#1 := by
      apply BitVec.eq_of_toNat_eq
      rw [toNat_unpackSign, hbits]
      exact Nat.div_eq_of_lt hsign
    rw [hzero]
    rfl
  have hbias : (Format.binary64.exponentBias : Int) +
      (Format.binary64.mantissaBitsWithoutImplicit : Int) = 1075 := by decide
  have hinf : unpackExponent b ≠ (-1#_) := by
    intro hinf
    have htoNat : (unpackExponent b).toNat = 2047 := by
      rw [hinf]
      rfl
    omega
  refine ⟨hm, ?_⟩
  show UnpackedFloat.unpack Format.binary64 b = _
  unfold UnpackedFloat.unpack
  dsimp only
  rw [if_neg hinf, hpositive]
  -- subnormal doubles have no implicit leading digit
  rcases hparts with ⟨hfield, rfl, rfl⟩ | ⟨hfield, hfield', rfl, rfl⟩
  · have hsub : unpackExponent b = 0#_ := by
      apply BitVec.eq_of_toNat_eq
      rw [hexponent, hfield]
      rfl
    have hne : unpackMantissa b ≠ 0#_ := by
      intro hzero
      rw [hzero, BitVec.toNat_ofNat, Nat.zero_mod] at hmantissa
      omega
    rw [if_pos hsub, dif_neg hne]
    exact finite_congr hmantissa (by rw [hbias, hexponent, hfield]; rfl)
  · have hsub : unpackExponent b ≠ 0#_ := by
      intro hzero
      rw [hzero, BitVec.toNat_ofNat, Nat.zero_mod] at hexponent
      omega
    have hexact : ((unpackExponent b).toNat : Int) = (x.toBits.toNat / 2 ^ 52 : Int) := by
      omega
    rw [if_neg hsub]
    exact finite_congr (by rw [toNat_append_one, hmantissa]) (by rw [hbias, hexact])

theorem toBits_zero : (0 : Float).toBits = 0 := by
  decide +kernel

theorem unpack_zero : (0 : Float).toModel.unpack = .zero .positive := by
  show UnpackedFloat.unpack Format.binary64 (0 : Float).toBits.toBitVec = _
  rw [toBits_zero]
  rfl

theorem not_le_zero_of_finite (x : Float) (m : Nat) (e : Int)
    (h : Binary64.ofFloat x = .finite false m e) (hm : 0 < m) : ¬x ≤ 0 := by
  obtain ⟨hp, hx⟩ := unpack_of_finite x m e h hm
  intro hle
  have hcompare : (x.toModel.unpack.compare (0 : Float).toModel.unpack).any (·.isLE) = true := by
    have hle : decide (x.toModel ≤ (0 : Float).toModel) = true := hle
    exact of_decide_eq_true hle
  rw [hx, unpack_zero] at hcompare
  cases hcompare

theorem zero_lt_of_finite (x : Float) (m : Nat) (e : Int)
    (h : Binary64.ofFloat x = .finite false m e) (hm : 0 < m) : 0 < x := by
  obtain ⟨hp, hx⟩ := unpack_of_finite x m e h hm
  have hlt : (0 : Float).toModel.unpack.lt x.toModel.unpack = true := by
    rw [hx, unpack_zero]
    rfl
  exact decide_eq_true (p := (0 : Float).toModel < x.toModel) hlt

/-- Bits between those of zero and of infinity are those of a positive finite double. -/
theorem ofFloat_of_toBits (x : Float) (hpos : 0 < x.toBits.toNat)
    (hlt : x.toBits.toNat < Binary64.infinityBits) :
    ∃ m e, Binary64.ofFloat x = .finite false m e ∧ 0 < m := by
  have hinfinity : Binary64.infinityBits = 2047 * 2 ^ 52 := rfl
  have hsign : decide (2 ^ 63 ≤ x.toBits.toNat) = false := by
    rw [decide_eq_false_iff_not]
    omega
  unfold Binary64.ofFloat
  simp only [hsign, if_neg (show ¬x.toBits.toNat / 2 ^ 52 % 2 ^ 11 = 2047 by omega)]
  split
  · exact ⟨_, _, rfl, by omega⟩
  · exact ⟨_, _, rfl, by omega⟩

theorem roundQuotient_one (n : Nat) : Binary64.roundQuotient n 1 = n := by
  simp [Binary64.roundQuotient, Nat.mod_one]

/-- The bits of an integer of at most 53 binary digits: its digits, and where the point stands. -/
theorem nearestBits_of_lt (n : Nat) (hn : 0 < n) (h : n < 2 ^ 53) :
    Binary64.nearestBits n 1 = (n.log2 + 1022) * 2 ^ 52 + n * 2 ^ (52 - n.log2) := by
  have hlog : n.log2 < 53 := (Nat.log2_lt (by omega)).mpr h
  have hself : 2 ^ n.log2 ≤ n := Nat.log2_self_le (by omega)
  have hupper : n < 2 ^ (n.log2 + 1) := Nat.lt_log2_self
  have hscaled : ∀ k, k + n.log2 = 52 → n * 2 ^ k < 2 ^ 53 := by
    intro k hk
    have hmul := Nat.mul_lt_mul_of_pos_right hupper (Nat.two_pow_pos k)
    rw [← Nat.pow_add] at hmul
    rwa [show n.log2 + 1 + k = 53 by omega] at hmul
  have hlow : max ((n.log2 : Int) - (1 : Nat).log2 - 53) Binary64.leastExponent =
      (n.log2 : Int) - 53 := by
    have hone : ((1 : Nat).log2 : Int) = 0 := by decide
    rw [hone, Binary64.leastExponent]
    omega
  have hunits : ∀ k : Nat, ∀ e : Int, e = -(k : Int) → Binary64.inUnits n 1 e = (n * 2 ^ k, 1) := by
    intro k e he
    unfold Binary64.inUnits
    split
    next hnonneg =>
      obtain rfl : k = 0 := by omega
      subst he
      simp
    next =>
      rw [show (-e).toNat = k by omega]
  -- the quotient has 54 digits in the first unit that is tried, so the unit is the next one
  have hbig : 2 ^ 53 ≤ n * 2 ^ (53 - n.log2) / 1 := by
    have hmul := Nat.mul_le_mul_right (2 ^ (53 - n.log2)) hself
    rw [← Nat.pow_add, show n.log2 + (53 - n.log2) = 53 by omega] at hmul
    rwa [Nat.div_one]
  have hunit : Binary64.unitExponent n 1 = (n.log2 : Int) - 52 := by
    unfold Binary64.unitExponent
    simp only [hlow, hunits (53 - n.log2) ((n.log2 : Int) - 53) (by omega), if_pos hbig]
    omega
  unfold Binary64.nearestBits
  simp only [if_neg (by omega : ¬n = 0), hunit,
    hunits (52 - n.log2) ((n.log2 : Int) - 52) (by omega), roundQuotient_one]
  have hfield : ((n.log2 : Int) - 52 - Binary64.leastExponent).toNat = n.log2 + 1022 := by
    rw [Binary64.leastExponent]
    omega
  have hinfinity : Binary64.infinityBits = 2047 * 2 ^ 52 := rfl
  have hfraction := hscaled (52 - n.log2) (by omega)
  rw [hfield, hinfinity, Nat.min_eq_left]
  omega

/-- A significand of 53 binary digits that is `k` times divisible by two. -/
theorem log2_of_scaled (n k : Nat) (hlow : 2 ^ 52 ≤ n * 2 ^ k) (hhigh : n * 2 ^ k < 2 ^ 53) :
    k ≤ 52 ∧ n.log2 = 52 - k := by
  have hn : 0 < n := by
    rcases Nat.eq_zero_or_pos n with rfl | hn
    · rw [Nat.zero_mul] at hlow
      exact absurd hlow (by decide)
    · exact hn
  have hk : k ≤ 52 := by
    have hle : 2 ^ k ≤ n * 2 ^ k := Nat.le_mul_of_pos_left _ hn
    have hlt : 2 ^ k < 2 ^ 53 := Nat.lt_of_le_of_lt hle hhigh
    have := (Nat.pow_lt_pow_iff_right (by decide : 1 < 2)).mp hlt
    omega
  have hsplit : ∀ i, 2 ^ (i - k + k) = 2 ^ (i - k) * 2 ^ k := fun i => Nat.pow_add 2 (i - k) k
  refine ⟨hk, (Nat.log2_eq_iff (by omega)).mpr ⟨?_, ?_⟩⟩
  · have h := hsplit 52
    rw [show 52 - k + k = 52 by omega] at h
    rw [h] at hlow
    exact Nat.le_of_mul_le_mul_right hlow (Nat.two_pow_pos k)
  · have h := hsplit 53
    rw [show 53 - k + k = 53 by omega] at h
    rw [h] at hhigh
    rw [show 52 - k + 1 = 53 - k by omega]
    exact Nat.lt_of_mul_lt_mul_right hhigh

/-- What it means for a double to be a positive integer: its significand and its scale. -/
theorem toInt?_positive (negative : Bool) (m : Nat) (e n : Int)
    (h : (Binary64.finite negative m e).toInt? = some n) (hn : 0 < n) :
    negative = false ∧ 0 < m ∧
      ((0 ≤ e ∧ n.toNat = m * 2 ^ e.toNat) ∨ (e < 0 ∧ n.toNat * 2 ^ (-e).toNat = m)) := by
  have hpositive : ∀ k : Nat, Binary64.signed negative k = n →
      negative = false ∧ n.toNat = k ∧ 0 < k := by
    intro k hk
    cases negative with
    | true =>
      have hneg : -(k : Int) = n := hk
      omega
    | false =>
      have hpos : (k : Int) = n := hk
      exact ⟨rfl, by omega, by omega⟩
  simp only [Binary64.toInt?] at h
  split at h
  next he =>
    obtain ⟨hsign, hvalue, hpos⟩ := hpositive _ (Option.some.inj h)
    exact ⟨hsign, Nat.pos_of_mul_pos_right hpos, .inl ⟨he, hvalue⟩⟩
  next he =>
    split at h
    next hmod =>
      obtain ⟨hsign, hvalue, hpos⟩ := hpositive _ (Option.some.inj h)
      have hdvd : n.toNat * 2 ^ (-e).toNat = m := by
        rw [hvalue]
        exact Nat.div_mul_cancel (Nat.dvd_of_mod_eq_zero hmod)
      have hm : 0 < m := by
        rw [← hdvd, hvalue]
        exact Nat.mul_pos hpos (Nat.two_pow_pos _)
      exact ⟨hsign, hm, .inr ⟨by omega, hdvd⟩⟩
    next => cases h

/-- The bits of a double whose exact value is a positive integer of at most 53 binary digits. -/
theorem toBits_of_toInt? (x : Float) (n : Int) (h : (Binary64.ofFloat x).toInt? = some n)
    (hn : 0 < n) (hlt : n < 2 ^ 53) :
    (∃ m e, Binary64.ofFloat x = .finite false m e ∧ 0 < m) ∧
      x.toBits.toNat = Binary64.nearestBits n.toNat 1 := by
  cases hx : Binary64.ofFloat x with
  | nan => rw [hx] at h; cases h
  | infinity negative => rw [hx] at h; cases h
  | finite negative m e =>
    rw [hx] at h
    obtain ⟨rfl, hm, hscale⟩ := toInt?_positive negative m e n h hn
    refine ⟨⟨m, e, rfl, hm⟩, ?_⟩
    rw [nearestBits_of_lt n.toNat (by omega) (by omega)]
    obtain ⟨-, ⟨-, hfraction, he⟩ | ⟨-, -, hfraction, he⟩⟩ := ofFloat_finite x m e hx
    · -- a subnormal double is below one
      rcases hscale with ⟨hnonneg, -⟩ | ⟨-, hscale⟩
      · omega
      · have hsmall : m < 2 ^ (-e).toNat :=
          Nat.lt_of_lt_of_le (by omega : m < 2 ^ 52) (Nat.pow_le_pow_right (by decide) (by omega))
        have hlarge : 2 ^ (-e).toNat ≤ m := by
          rw [← hscale]
          exact Nat.le_mul_of_pos_left _ (by omega)
        omega
    · rcases hscale with ⟨hnonneg, hscale⟩ | ⟨hneg, hscale⟩
      · have hzero : e.toNat = 0 := by
          rcases Nat.eq_zero_or_pos e.toNat with hz | hpos
          · exact hz
          · have hpow : 2 ^ 1 ≤ 2 ^ e.toNat := Nat.pow_le_pow_right (by decide) hpos
            have hmul : m * 2 ^ 1 ≤ m * 2 ^ e.toNat := Nat.mul_le_mul_left m hpow
            omega
        rw [hzero, Nat.pow_zero, Nat.mul_one] at hscale
        have hlog : n.toNat.log2 = 52 := by
          rw [hscale, Nat.log2_eq_iff (by omega)]
          omega
        rw [hlog, hscale]
        omega
      · obtain ⟨hk, hlog⟩ := log2_of_scaled n.toNat (-e).toNat (by omega) (by omega)
        rw [hlog, show 52 - (52 - (-e).toNat) = (-e).toNat by omega, hscale]
        omega

/-- An integer below `2 ^ 53` that is a double is the double nearest to it. -/
theorem eq_nearest_of_toInt? (x : Float) (n : Int) (h : (Binary64.ofFloat x).toInt? = some n)
    (hn : 0 < n) (hlt : n < 2 ^ 53) : Binary64.nearest false n.toNat 1 = x := by
  have hbits := (toBits_of_toInt? x n h hn hlt).2
  have hround : x.toBits = (Binary64.nearestBits n.toNat 1).toUInt64 := by
    rw [← hbits]
    exact (UInt64.ofNat_toNat).symm
  show Float.ofBits (Binary64.nearestBits n.toNat 1).toUInt64 = x
  rw [← hround]
  exact ofBits_toBits x

theorem toBits_ofBits (bits : UInt64) (h : bits.toNat / 2 ^ 52 % 2 ^ 11 ≠ 2047) :
    (Float.ofBits bits).toBits = bits := by
  let b : BitVec Format.binary64.numBits := bits.toBitVec
  have hfinite : unpackExponent b ≠ (-1#_) := by
    intro hinf
    have hexponent := toNat_unpackExponent b
    rw [hinf] at hexponent
    exact h hexponent.symm
  have hpack := pack_unpack b ⟨fun hinf => absurd hinf hfinite⟩
  show UInt64.ofBitVec (UnpackedFloat.pack Format.binary64
    (UnpackedFloat.unpack Format.binary64 b)) = bits
  rw [hpack]

theorem toBits_nearest (num den : Nat)
    (h : Binary64.nearestBits num den < Binary64.infinityBits) :
    (Binary64.nearest false num den).toBits.toNat = Binary64.nearestBits num den := by
  have hinfinity : Binary64.infinityBits = 2047 * 2 ^ 52 := rfl
  have htoNat : (Binary64.nearestBits num den).toUInt64.toNat = Binary64.nearestBits num den :=
    UInt64.toNat_ofNat_of_lt' (by show _ < 2 ^ 64; omega)
  show (Float.ofBits (Binary64.nearestBits num den).toUInt64).toBits.toNat = _
  rw [toBits_ofBits _ (by rw [htoNat]; omega), htoNat]

theorem nearestBits_le (num den : Nat) :
    Binary64.nearestBits num den ≤ Binary64.infinityBits := by
  unfold Binary64.nearestBits
  dsimp only
  split
  · exact Nat.zero_le _
  · exact Nat.min_le_right _ _

/-- A rounded quotient is no NaN, so it is zero or positive. -/
theorem zero_lt_nearest {num den : Nat} (h : ¬Binary64.nearest false num den ≤ 0) :
    0 < Binary64.nearest false num den := by
  rcases Nat.lt_or_eq_of_le (nearestBits_le num den) with hlt | hinfinite
  · have hbits := toBits_nearest num den hlt
    rcases Nat.eq_zero_or_pos (Binary64.nearestBits num den) with hzero | hpos
    · have hx : Binary64.nearest false num den = 0 :=
        eq_of_toBits (UInt64.toNat_inj.mp (by rw [hbits, hzero, toBits_zero]; rfl))
      rw [hx] at h
      exact absurd (by decide +kernel) h
    · obtain ⟨m, e, hfinite, hm⟩ := ofFloat_of_toBits _ (by rwa [hbits]) (by rwa [hbits])
      exact zero_lt_of_finite _ m e hfinite hm
  · have hx : Binary64.nearest false num den = Float.ofBits Binary64.infinityBits.toUInt64 := by
      rw [← hinfinite]
      rfl
    rw [hx]
    decide +kernel

theorem toFloat_eq_nearest (negative : Bool) (coefficient : Nat) (exponent : Int) :
    ∃ num den, Decimal.toFloat negative coefficient exponent =
      Binary64.nearest negative num den := by
  unfold Decimal.toFloat
  split
  · exact ⟨_, _, rfl⟩
  · split
    · exact ⟨_, _, rfl⟩
    · exact ⟨_, _, rfl⟩

/-- The double nearest to an integer below `2 ^ 53` is that integer. -/
theorem toInt?_nearest (n : Nat) (hn : 0 < n) (hlt : n < 2 ^ 53) :
    (Binary64.ofFloat (Binary64.nearest false n 1)).toInt? = some (n : Int) := by
  have hlog : n.log2 < 53 := (Nat.log2_lt (by omega)).mpr hlt
  have hself : 2 ^ n.log2 ≤ n := Nat.log2_self_le (by omega)
  have hupper : n < 2 ^ (n.log2 + 1) := Nat.lt_log2_self
  obtain ⟨k, hk⟩ : ∃ k, n.log2 + k = 52 := ⟨52 - n.log2, by omega⟩
  have hlow : 2 ^ 52 ≤ n * 2 ^ k := by
    have hmul := Nat.mul_le_mul_right (2 ^ k) hself
    rwa [← Nat.pow_add, hk] at hmul
  have hhigh : n * 2 ^ k < 2 ^ 53 := by
    have hmul := Nat.mul_lt_mul_of_pos_right hupper (Nat.two_pow_pos k)
    rwa [← Nat.pow_add, show n.log2 + 1 + k = 53 by omega] at hmul
  have hnat := nearestBits_of_lt n hn hlt
  rw [show 52 - n.log2 = k by omega] at hnat
  have hinfinity : Binary64.infinityBits = 2047 * 2 ^ 52 := rfl
  have hbits := toBits_nearest n 1 (by omega)
  have hfield : Binary64.nearestBits n 1 / 2 ^ 52 % 2 ^ 11 = n.log2 + 1023 := by omega
  have hfraction : 2 ^ 52 + Binary64.nearestBits n 1 % 2 ^ 52 = n * 2 ^ k := by omega
  have hsign : decide (2 ^ 63 ≤ Binary64.nearestBits n 1) = false := by
    rw [decide_eq_false_iff_not]
    omega
  have hfinite : Binary64.ofFloat (Binary64.nearest false n 1) =
      .finite false (n * 2 ^ k) (-(k : Int)) := by
    unfold Binary64.ofFloat
    simp only [hbits, hfield, hfraction, hsign]
    have hexponent : ((n.log2 + 1023 : Nat) : Int) - 1075 = -(k : Int) := by omega
    rw [if_neg (show ¬n.log2 + 1023 = 2047 by omega), if_neg (Nat.succ_ne_zero _), hexponent]
  rw [hfinite]
  simp only [Binary64.toInt?]
  rcases Nat.eq_zero_or_pos k with rfl | hpos
  · simp [Binary64.signed]
  · rw [if_neg (by omega), show (- -(k : Int)).toNat = k by omega, Nat.mul_mod_left, if_pos rfl,
      Nat.mul_div_cancel _ (Nat.two_pow_pos k)]
    rfl

/-! ### Comparing -/

theorem compare_swap (x y : UnpackedFloat) : y.compare x = (x.compare y).map Ordering.swap := by
  have hfinite : ∀ (m m' : Nat) (e e' : Int), (compare e' e).then (compare m' m) =
      ((compare e e').then (compare m m')).swap := by
    intro m m' e e'
    rw [Ordering.swap_then, ← Std.OrientedOrd.eq_swap, ← Std.OrientedOrd.eq_swap]
  cases x with
  | notANumber => cases y <;> rfl
  | infinity s =>
    cases y with
    | finite t => cases s <;> rfl
    | _ => cases s <;> first | rfl | (rename_i t; cases t <;> rfl)
  | zero s =>
    cases y with
    | notANumber => rfl
    | zero t => rfl
    | _ t => cases t <;> rfl
  | finite s m e h =>
    cases y with
    | notANumber => cases s <;> rfl
    | infinity t => cases s <;> cases t <;> rfl
    | zero t => cases s <;> rfl
    | finite t m' e' h' =>
      cases s <;> cases t
      · exact congrArg (some ∘ Ordering.swap) (hfinite m m' e e')
      · rfl
      · rfl
      · exact congrArg some (hfinite m m' e e')

/-- Doubles compare in one order or the other, or in none if one of them is a NaN. -/
theorem atMost_float (x y : Float) : Number.atMost (.float x) (.float y) = decide (x ≤ y) := by
  have hswap := compare_swap x.toModel.unpack y.toModel.unpack
  have hle : decide (x ≤ y) = (x.toModel.unpack.compare y.toModel.unpack).any (·.isLE) := by
    rw [Bool.eq_iff_iff, decide_eq_true_iff]
    exact decide_eq_true_iff (p := x.toModel ≤ y.toModel)
  have hlt : ∀ a b : Float, a < b ↔ a.toModel.unpack.compare b.toModel.unpack = some .lt := by
    intro a b
    have hmodel : (a.toModel.unpack.compare b.toModel.unpack == some .lt) = true ↔ a < b :=
      (decide_eq_true_iff (p := a.toModel < b.toModel)).symm
    rw [← hmodel, beq_iff_eq]
  have heq : (x == y) = (x.toModel.unpack.compare y.toModel.unpack == some .eq) := rfl
  rw [hle, Number.atMost, Number.compare?]
  simp only [hlt, heq, hswap]
  cases x.toModel.unpack.compare y.toModel.unpack with
  | none => rfl
  | some order => cases order <;> rfl

end ProseGrammar
