import ProseGrammar.Draws
import ProseGrammar.Proofs.Binary64
import ProseGrammar.Selection

/-!
# Draws select positions

A nonnegative double is a number of units of `2 ^ e`, and it is smaller than `2 ^ (e + 53)`. The unit
of a rounded value is never greater than that of a double which the value does not exceed. So a draw
of the seeded generator is a share, in units of at most `2 ^ -53`; a share of a number has no greater
unit than the number, in particular it is finite; and the position that it selects is always one of a
list.
-/

namespace ProseGrammar

open Float.Model Float.Model.UnpackedFloat

/-! ### Units -/

/-- Whether an exact value is finite and not negative, and its unit is at most `2 ^ bound`. -/
def Binary64.UnitAtMost (bound : Int) : Binary64 → Prop
  | finite false _ e => e ≤ bound
  | _ => False

/-- Whether the parts of a double are those of a value that is finite and not negative, and its
unit is at most `2 ^ bound`. -/
def PartsAtMost (bound : Int) : UnpackedFloat → Prop
  | .zero .positive => True
  | .finite .positive _ e _ => -1074 ≤ e ∧ e ≤ bound
  | _ => False

theorem exists_of_unitAtMost {bound : Int} {v : Binary64} (h : v.UnitAtMost bound) :
    ∃ m e, v = .finite false m e ∧ e ≤ bound := by
  match v, h with
  | .finite false m e, h => exact ⟨m, e, rfl, h⟩

theorem unpack_of_unitAtMost {bound : Int} {x : Float}
    (h : (Binary64.ofFloat x).UnitAtMost bound) :
    x.toModel.unpack = .zero .positive ∨ ∃ m e hm, x.toModel.unpack = .finite .positive m e hm ∧
      m < 2 ^ 53 ∧ -1074 ≤ e ∧ e ≤ bound := by
  obtain ⟨m, e, hx, hbound⟩ := exists_of_unitAtMost h
  have hparts := (ofFloat_finite x m e hx).2
  rcases Nat.eq_zero_or_pos m with rfl | hm
  · have hbits : x.toBits = 0 := by
      apply UInt64.toNat_inj.mp
      show x.toBits.toNat = 0
      omega
    left
    show UnpackedFloat.unpack Format.binary64 x.toBits.toBitVec = _
    rw [hbits]
    rfl
  · obtain ⟨hp, hunpack⟩ := unpack_of_finite x m e hx hm
    exact .inr ⟨m, e, hp, hunpack, by omega, by omega, hbound⟩

theorem toNat_packComponents (field : BitVec 11) (fraction : BitVec 52) :
    (packComponents Format.binary64 .positive field fraction).toNat =
      field.toNat * 2 ^ 52 + fraction.toNat := by
  have hfraction : fraction.toNat < 2 ^ 52 := fraction.isLt
  show ((0#1 ++ field) ++ fraction).toNat = _
  rw [BitVec.toNat_append, ← Nat.shiftLeft_add_eq_or_of_lt hfraction, BitVec.toNat_append,
    Nat.shiftLeft_eq]
  simp

/-- The unit of a finite double is a matter of its exponent field. -/
theorem unitAtMost_of_bits {bound : Int} (x : Float) (field fraction : Nat)
    (hfraction : fraction < 2 ^ 52) (hbits : x.toBits.toNat = field * 2 ^ 52 + fraction)
    (hleast : -1074 ≤ bound) (hmost : bound ≤ 971) (hbound : (field : Int) - 1075 ≤ bound) :
    (Binary64.ofFloat x).UnitAtMost bound := by
  have hsign : decide (2 ^ 63 ≤ x.toBits.toNat) = false := by
    rw [decide_eq_false_iff_not]
    omega
  have hquotient : x.toBits.toNat / 2 ^ 52 % 2 ^ 11 = field := by omega
  unfold Binary64.ofFloat
  simp only [hsign, hquotient, if_neg (show field ≠ 2047 by omega)]
  split
  · exact hleast
  · exact hbound

/-- Parts in small units make a double in small units, normal or not. -/
theorem unitAtMost_pack {bound : Int} {u : UnpackedFloat} (hleast : -1074 ≤ bound)
    (hmost : bound ≤ 971) (h : PartsAtMost bound u) :
    (Binary64.ofFloat (Float.ofModel (Float.Model.pack u))).UnitAtMost bound := by
  have hfields : ∀ (field : BitVec 11) (fraction : BitVec 52),
      UnpackedFloat.pack Format.binary64 u =
        packComponents Format.binary64 .positive field fraction →
      (field.toNat : Int) - 1075 ≤ bound →
      (Binary64.ofFloat (Float.ofModel (Float.Model.pack u))).UnitAtMost bound := by
    intro field fraction hpack hfield
    refine unitAtMost_of_bits _ field.toNat fraction.toNat fraction.isLt ?_ hleast hmost hfield
    show (UnpackedFloat.pack Format.binary64 u).toNat = _
    rw [hpack, toNat_packComponents]
  match u, h with
  | .zero .positive, _ => exact hfields 0#11 0#52 rfl (by show (0 : Int) - 1075 ≤ bound; omega)
  | .finite .positive m e hm, h =>
    have hparts : -1074 ≤ e ∧ e ≤ bound := h
    obtain ⟨field, hfield⟩ : ∃ field : Nat, e + 1075 = field := ⟨(e + 1075).toNat, by omega⟩
    have hpack := pack_finite .positive m e hm field (by omega) hfield
    by_cases hlog : m.log2 = 52
    · rw [if_pos hlog] at hpack
      refine hfields _ _ hpack ?_
      rw [BitVec.toNat_ofNat]
      omega
    · rw [if_neg hlog] at hpack
      exact hfields _ _ hpack (by show (0 : Int) - 1075 ≤ bound; omega)

/-! ### Rounding -/

/-- The least natural number that is not below an extended mantissa. -/
def mantissaCeiling (em : ExtendedMantissa) : Nat :=
  em.mantissa + if em.roundBit || em.stickyBit then 1 else 0

theorem roundedMantissa_le (em : ExtendedMantissa) : em.roundedMantissa ≤ mantissaCeiling em := by
  obtain ⟨m, r, s⟩ := em
  cases r <;> cases s <;>
    simp [ExtendedMantissa.roundedMantissa, ExtendedMantissa.accuracy,
      Accuracy.roundToNearestEven, mantissaCeiling]
  omega

theorem mantissaCeiling_shiftRightOne (em : ExtendedMantissa) (n : Nat)
    (h : mantissaCeiling em ≤ 2 * n) : mantissaCeiling em.shiftRightOne ≤ n := by
  obtain ⟨m, r, s⟩ := em
  have h : m + (if r || s then 1 else 0) ≤ 2 * n := h
  show m / 2 + (if m % 2 != 0 || (r || s) then 1 else 0) ≤ n
  by_cases hbits : (r || s) = true
  · rw [if_pos hbits] at h
    rw [if_pos (by rw [hbits, Bool.or_true])]
    omega
  · rw [if_neg hbits] at h
    split
    next hodd =>
      rw [Bool.or_eq_true, bne_iff_ne] at hodd
      have hodd := hodd.resolve_right hbits
      omega
    next => omega

theorem mantissaCeiling_shiftRight (em : ExtendedMantissa) (k n : Nat)
    (h : mantissaCeiling em ≤ n * 2 ^ k) : mantissaCeiling (em >>> k) ≤ n := by
  induction k generalizing n with
  | zero =>
    rw [Nat.pow_zero, Nat.mul_one] at h
    exact h
  | succ k ih =>
    have hstep : mantissaCeiling (em >>> k) ≤ 2 * n := by
      apply ih
      rw [Nat.pow_succ] at h
      calc mantissaCeiling em ≤ n * (2 ^ k * 2) := h
        _ = 2 * n * 2 ^ k := by rw [Nat.mul_comm (2 ^ k), ← Nat.mul_assoc, Nat.mul_comm n]
    exact mantissaCeiling_shiftRightOne (em >>> k) n hstep

theorem targetExponent_eq (total : Int) :
    Format.binary64.targetExponent total = max (total - 53) (-1074) := by
  have hbits : (Format.binary64.mantissaBits : Int) = 53 := by decide
  have hmin : Format.binary64.minExponent = -1074 := by decide
  rw [Format.targetExponent, hbits, hmin]

/-- The unit that rounding aims at is no greater than that of a bound. -/
theorem targetExponent_le {m : Nat} {e bound : Int} (hleast : -1074 ≤ bound) (he : e ≤ bound)
    (h : m < 2 ^ 53 * 2 ^ (bound - e).toNat) :
    Format.binary64.targetExponent (totalExponent m e) ≤ bound := by
  have hlog : m.log2 < 53 + (bound - e).toNat := by
    rcases Nat.eq_zero_or_pos m with rfl | hm
    · show 0 < 53 + (bound - e).toNat
      omega
    · rwa [Nat.log2_lt (by omega), Nat.pow_add]
  rw [targetExponent_eq, totalExponent]
  omega

/-- A value that is at most a double in units of `2 ^ bound` is shifted to a unit that is no greater
than these, and stays at most that double. -/
theorem shiftToTargetExponent_le {m : Nat} {e bound : Int} {a : Accuracy} {n : Nat}
    (hleast : -1074 ≤ bound) (he : e ≤ bound) (hn : n < 2 ^ 53)
    (h : mantissaCeiling (.ofMantissaAndAccuracy m a) ≤ n * 2 ^ (bound - e).toNat) :
    -1074 ≤ (shiftToTargetExponent Format.binary64 m e a).2 ∧
    (shiftToTargetExponent Format.binary64 m e a).2 ≤ bound ∧
      mantissaCeiling (shiftToTargetExponent Format.binary64 m e a).1 ≤
        n * 2 ^ (bound - (shiftToTargetExponent Format.binary64 m e a).2).toNat := by
  have hm : m ≤ mantissaCeiling (.ofMantissaAndAccuracy m a) := by
    have hmantissa : (ExtendedMantissa.ofMantissaAndAccuracy m a).mantissa = m := by
      rcases a with _ | _ | _ | _ <;> rfl
    rw [mantissaCeiling, hmantissa]
    exact Nat.le_add_right _ _
  have htarget : Format.binary64.targetExponent (totalExponent m e) ≤ bound := by
    apply targetExponent_le hleast he
    calc m ≤ n * 2 ^ (bound - e).toNat := Nat.le_trans hm h
      _ < 2 ^ 53 * 2 ^ (bound - e).toNat := Nat.mul_lt_mul_of_pos_right hn (Nat.two_pow_pos _)
  have hmin : -1074 ≤ Format.binary64.targetExponent (totalExponent m e) := by
    rw [targetExponent_eq]
    exact Int.le_max_right _ _
  unfold shiftToTargetExponent shiftToExponent
  dsimp only
  generalize Format.binary64.targetExponent (totalExponent m e) = target at htarget hmin
  refine ⟨by omega, by omega, ?_⟩
  apply mantissaCeiling_shiftRight
  rw [Nat.mul_assoc, ← Nat.pow_add]
  rwa [show (bound - (e + ((target - e).toNat : Int))).toNat + (target - e).toNat =
    (bound - e).toNat by omega]

/-- A value that is at most a double is rounded to a double with no greater unit. -/
theorem partsAtMost_roundWithAccuracy {m : Nat} {e bound : Int} {a : Accuracy} {n : Nat}
    (hleast : -1074 ≤ bound) (he : e ≤ bound) (hn : n < 2 ^ 53)
    (h : mantissaCeiling (.ofMantissaAndAccuracy m a) ≤ n * 2 ^ (bound - e).toNat) :
    PartsAtMost bound (roundWithAccuracy Format.binary64 .positive m e a) := by
  obtain ⟨_, hunit, hceiling⟩ := shiftToTargetExponent_le hleast he hn h
  unfold roundWithAccuracy
  generalize shiftToTargetExponent Format.binary64 m e a = first at hunit hceiling
  obtain ⟨em, e₁⟩ := first
  have hrounded := Nat.le_trans (roundedMantissa_le em) hceiling
  obtain ⟨hleast', hunit', _⟩ := shiftToTargetExponent_le (a := .exact) hleast hunit hn hrounded
  dsimp only
  by_cases hzero :
      (shiftToTargetExponent Format.binary64 em.roundedMantissa e₁ .exact).1.mantissa = 0
  · rw [dif_pos hzero]
    trivial
  · rw [dif_neg hzero]
    exact ⟨hleast', hunit'⟩

/-! ### Products and quotients -/

/-- A number in units of at most `2 ^ -53` is less than one, so a product with it has no greater
unit than the other factor. -/
theorem unitAtMost_mul {bound : Int} {x y : Float} (hleast : -1074 ≤ bound)
    (hmost : bound ≤ 971) (hx : (Binary64.ofFloat x).UnitAtMost (-53))
    (hy : (Binary64.ofFloat y).UnitAtMost bound) :
    (Binary64.ofFloat (x * y)).UnitAtMost bound := by
  refine unitAtMost_pack (u := UnpackedFloat.mul Format.binary64 x.toModel.unpack y.toModel.unpack)
    hleast hmost ?_
  rcases unpack_of_unitAtMost hx with hx | ⟨m₁, e₁, _, hx, hlt₁, _, hunit₁⟩ <;>
    rcases unpack_of_unitAtMost hy with hy | ⟨m₂, e₂, _, hy, hlt₂, _, hunit₂⟩ <;>
    rw [hx, hy]
  case inr.inr =>
    refine partsAtMost_roundWithAccuracy hleast (by omega) hlt₂ ?_
    have hpow : 2 ^ 53 ≤ 2 ^ (bound - (e₁ + e₂)).toNat :=
      Nat.pow_le_pow_right (by decide) (by omega)
    calc m₁ * m₂ ≤ 2 ^ (bound - (e₁ + e₂)).toNat * m₂ :=
          Nat.mul_le_mul_right m₂ (Nat.le_trans (Nat.le_of_lt hlt₁) hpow)
      _ = m₂ * 2 ^ (bound - (e₁ + e₂)).toNat := Nat.mul_comm _ _
  all_goals trivial

theorem mantissaCeiling_quotient (m d n : Nat) (h : m ≤ n * d) :
    mantissaCeiling (.ofMantissaAndAccuracy (m / d) (accuracyOfFraction (m % d) d)) ≤ n := by
  have hle : m / d ≤ n := Nat.div_le_of_le_mul (by rwa [Nat.mul_comm])
  unfold accuracyOfFraction
  split
  next => exact hle
  next hrest =>
    -- a quotient with a rest is not the bound itself
    have hne : m / d ≠ n := by
      intro heq
      have hdiv := Nat.div_add_mod m d
      rw [heq, Nat.mul_comm] at hdiv
      omega
    have hceiling : ∀ order : Ordering,
        mantissaCeiling (.ofMantissaAndAccuracy (m / d) (.inexact order)) = m / d + 1 := by
      intro order
      cases order <;> rfl
    rw [hceiling]
    omega

theorem unpack_twoPow32 :
    ∃ h, (4294967296 : Float).toModel.unpack = .finite .positive (2 ^ 52) (-20) h := by
  have hbits : ∃ h, UnpackedFloat.unpack Format.binary64 0x41F0000000000000#64 =
      .finite .positive (2 ^ 52) (-20) h := ⟨by decide, by rfl⟩
  obtain ⟨h, hbits⟩ := hbits
  refine ⟨h, ?_⟩
  show UnpackedFloat.unpack Format.binary64 (4294967296 : Float).toBits.toBitVec = _
  have htoBits : (4294967296 : Float).toBits = 0x41F0000000000000 := by decide +kernel
  rw [htoBits]
  exact hbits

theorem unitAtMost_div_twoPow32 {x : Float} (hx : (Binary64.ofFloat x).UnitAtMost (-21)) :
    (Binary64.ofFloat (x / 4294967296)).UnitAtMost (-53) := by
  refine unitAtMost_pack (u := UnpackedFloat.div Format.binary64 x.toModel.unpack
    (4294967296 : Float).toModel.unpack) (by decide) (by decide) ?_
  obtain ⟨hd, hunpack⟩ := unpack_twoPow32
  rw [hunpack]
  obtain hx | ⟨m, e, hm, hx, hlt, _, hunit⟩ := unpack_of_unitAtMost hx
  all_goals rw [hx]
  · trivial
  · have hlog : m.log2 < 53 := (Nat.log2_lt (by omega)).mpr hlt
    have htarget : Format.binary64.targetExponent
        (totalExponent m e - totalExponent (2 ^ 52) (-20)) ≤ -53 := by
      have hdivisor : totalExponent (2 ^ 52) (-20) = 33 := by decide +kernel
      rw [targetExponent_eq, hdivisor, totalExponent]
      omega
    show PartsAtMost (-53) (roundWithAccuracy Format.binary64 .positive _ _ _)
    generalize Format.binary64.targetExponent
      (totalExponent m e - totalExponent (2 ^ 52) (-20)) = target at htarget
    refine partsAtMost_roundWithAccuracy (n := m) (by decide) (by omega) hlt ?_
    apply mantissaCeiling_quotient
    rw [Nat.shiftLeft_eq, Nat.mul_assoc, ← Nat.pow_add]
    exact Nat.mul_le_mul_left m (Nat.pow_le_pow_right (by decide) (by omega))

theorem unitAtMost_toFloat (w : UInt32) : (Binary64.ofFloat w.toFloat).UnitAtMost (-21) := by
  refine unitAtMost_pack (u := UnpackedFloat.normalize Format.binary64 w.toNat 0 .positive)
    (by decide) (by decide) ?_
  have hlt : w.toNat < 2 ^ 32 := w.toBitVec.isLt
  unfold UnpackedFloat.normalize
  split
  next hnegative =>
    rw [Int.compare_eq_lt] at hnegative
    omega
  next => trivial
  next hpositive =>
    rw [Int.compare_eq_gt] at hpositive
    have hlog : w.toNat.log2 < 32 := (Nat.log2_lt (by omega)).mpr hlt
    have htarget : Format.binary64.targetExponent (totalExponent w.toNat 0) ≤ -21 := by
      rw [targetExponent_eq, totalExponent]
      omega
    simp only [UnpackedFloat.round, decreaseExponent, Int.toNat_natCast]
    generalize Format.binary64.targetExponent (totalExponent w.toNat 0) = target at htarget
    refine partsAtMost_roundWithAccuracy (n := w.toNat * 2 ^ 21) (by decide) (by omega)
      (by omega) ?_
    show w.toNat <<< (0 - target).toNat ≤ _
    rw [Nat.shiftLeft_eq, Nat.mul_assoc, ← Nat.pow_add]
    exact Nat.mul_le_mul_left _ (Nat.pow_le_pow_right (by decide) (by omega))

/-! ### Draws -/

/-- Whether a number is a share: it is not negative and less than one. -/
def IsShare (x : Float) : Prop :=
  (Binary64.ofFloat x).UnitAtMost (-53)

/-- Whether all draws of a source are shares. -/
def DrawsShares (σ : Type) [DrawSource σ] : Prop :=
  ∀ s : σ, IsShare (DrawSource.draw s).1

theorem drawsShares_seededRandom : DrawsShares SeededRandom := fun r =>
  unitAtMost_div_twoPow32 (unitAtMost_toFloat r.next.output)

theorem unitAtMost_floatOfInt {n : Nat} {x : Float} (h : Number.floatOfInt n = .ok x) :
    (Binary64.ofFloat x).UnitAtMost 971 := by
  unfold Number.floatOfInt Binary64.nearest? at h
  rw [decide_eq_false (by omega), Int.natAbs_natCast] at h
  split at h
  next y hy =>
    cases h
    split at hy
    next => cases hy
    next hne =>
      cases hy
      have hinfinity : Binary64.infinityBits = 2047 * 2 ^ 52 := rfl
      have hfinite := Nat.lt_of_le_of_ne (nearestBits_le n 1) hne
      have hbits := toBits_nearest n 1 hfinite
      exact unitAtMost_of_bits _ (Binary64.nearestBits n 1 / 2 ^ 52)
        (Binary64.nearestBits n 1 % 2 ^ 52) (by omega) (by omega) (by decide) (by decide) (by omega)
  next => cases h

namespace Selection

theorem floorFloat_of_unitAtMost {bound : Int} {x : Float}
    (h : (Binary64.ofFloat x).UnitAtMost bound) : ∃ i, floorFloat x = .ok i ∧ 0 ≤ i := by
  obtain ⟨m, e, hx, _⟩ := exists_of_unitAtMost h
  unfold floorFloat
  rw [hx]
  refine ⟨_, rfl, ?_⟩
  simp only [Binary64.floor?, Binary64.signed]
  split
  · exact Int.natCast_nonneg _
  · exact Int.ediv_nonneg (Int.natCast_nonneg _) (Int.le_of_lt (Int.pow_pos (by decide)))

theorem position_of_nonneg {count : Nat} (hcount : 0 < count) {i : Int} (hi : 0 ≤ i) :
    ∃ index, position count i = .ok index ∧ index < count := by
  unfold position
  split
  · exact ⟨_, rfl, by omega⟩
  · exact ⟨i.toNat, rfl, by omega⟩

/-- A share of a number of items selects one of them, unless there are more items than doubles can
count. -/
theorem uniformIndex_of_share {draw : Float} (hdraw : IsShare draw) {count : Nat}
    (hcount : 0 < count) :
    uniformIndex floorFloat (Number.floatOfInt ·) count draw = .error .integerRange ∨
      ∃ index, uniformIndex floorFloat (Number.floatOfInt ·) count draw = .ok index ∧
        index < count := by
  have hsteps : uniformIndex floorFloat (Number.floatOfInt ·) count draw =
      Number.floatOfInt count >>= fun n => floorFloat (draw * n) >>= position count := rfl
  rw [hsteps]
  cases hn : Number.floatOfInt count with
  | error fault =>
    left
    unfold Number.floatOfInt at hn
    split at hn
    · cases hn
    · cases hn
      rfl
  | ok n =>
    right
    have hproduct := unitAtMost_mul (by decide) (by decide) hdraw (unitAtMost_floatOfInt hn)
    obtain ⟨i, hfloor, hi⟩ := floorFloat_of_unitAtMost hproduct
    obtain ⟨index, hindex, hlt⟩ := position_of_nonneg hcount hi
    refine ⟨index, ?_, hlt⟩
    show floorFloat (draw * n) >>= position count = _
    rw [hfloor]
    exact hindex

end Selection

end ProseGrammar
