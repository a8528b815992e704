import Mathlib.Data.Nat.Prime.Basic
import Mathlib.Data.Nat.ModEq
import Mathlib.Data.Set.Function
import Mathlib.Logic.Function.Iterate
import ProseGrammar.Draws

/-!
# Streams of the seeded generator

Every step from a folded seed to a drawn number can be undone: shifts combined by exclusive or,
products with odd numbers, and the first shift of the output, whose length stands in the bits that
it leaves alone. So two seeds draw the same numbers if they fold to the same 32 bits, and otherwise
differ in every draw.
-/

namespace ProseGrammar

open Function

/-! ### Steps that can be undone -/

/-- The exclusive or of a number and its own bits, shifted to the right, determines the number. -/
theorem eq_of_xor_shiftRight (k x y : UInt32) (hk : 0 < k.toNat % 32)
    (h : x ^^^ (x >>> k) = y ^^^ (y >>> k)) : x = y := by
  have hsame : (x ^^^ y) >>> k = x ^^^ y := by
    rw [UInt32.shiftRight_xor]
    calc x >>> k ^^^ y >>> k
        = x ^^^ (x ^^^ x >>> k) ^^^ y >>> k := by
          rw [← UInt32.xor_assoc x, UInt32.xor_self, UInt32.zero_xor]
      _ = x ^^^ y := by
          rw [h, UInt32.xor_assoc, UInt32.xor_assoc, UInt32.xor_self, UInt32.xor_zero]
  -- only zero stays the same when it is shifted
  have hdiv : (x ^^^ y).toNat / 2 ^ (k.toNat % 32) = (x ^^^ y).toNat := by
    rw [← Nat.shiftRight_eq_div_pow, ← UInt32.toNat_shiftRight, hsame]
  have hzero : (x ^^^ y).toNat = 0 := by
    by_contra hne
    have hlt := Nat.div_lt_self (Nat.pos_of_ne_zero hne) (Nat.one_lt_two_pow hk.ne')
    omega
  exact UInt32.xor_eq_zero_iff.mp (UInt32.toNat_inj.mp hzero)

theorem eq_of_mul_odd (a x y : UInt32) (ha : Odd a.toNat) (h : x * a = y * a) : x = y := by
  have hmod : x.toNat * a.toNat ≡ y.toNat * a.toNat [MOD 2 ^ 32] := by
    have hnat := congrArg UInt32.toNat h
    simp only [UInt32.toNat_mul] at hnat
    exact hnat
  have hcoprime : Nat.gcd (2 ^ 32) a.toNat = 1 :=
    Nat.Coprime.pow_left 32 (Nat.coprime_two_left.mpr ha)
  have hcancel := Nat.ModEq.cancel_right_of_coprime hcoprime hmod
  exact UInt32.toNat_inj.mp (hcancel.eq_of_lt_of_lt x.toNat_lt y.toNat_lt)

namespace SeededRandom

theorem state_injective : Injective state := by
  intro r s h
  cases r
  cases s
  exact congrArg SeededRandom.mk h

theorem scramble_injective : Injective scramble := by
  intro x y h
  simp only [scramble] at h
  have hsecond := eq_of_xor_shiftRight 16 _ _ (by decide) h
  have hshifted := eq_of_mul_odd 0xC2B2AE35 _ _ (by decide) hsecond
  have hfirst := eq_of_xor_shiftRight 13 _ _ (by decide) hshifted
  exact eq_of_xor_shiftRight 16 x y (by decide) (eq_of_mul_odd 0x85EBCA6B _ _ (by decide) hfirst)

/-- The length of the first shift of the output is at least four and at most nineteen. -/
theorem toNat_outputShift (x : UInt32) :
    4 ≤ ((x >>> 28) + 4).toNat ∧ ((x >>> 28) + 4).toNat < 20 := by
  have hlt := x.toNat_lt
  have htop : (x >>> 28).toNat = x.toNat / 2 ^ 28 := by
    rw [UInt32.toNat_shiftRight, Nat.shiftRight_eq_div_pow]
    rfl
  have hfour : (4 : UInt32).toNat = 4 := rfl
  rw [UInt32.toNat_add, htop, hfour]
  omega

/-- The first shift of the output leaves the four bits alone that choose its length. -/
theorem top_of_outputShift (x : UInt32) :
    ((x >>> ((x >>> 28) + 4)) ^^^ x) >>> 28 = x >>> 28 := by
  obtain ⟨hlow, hhigh⟩ := toNat_outputShift x
  have hnone : (x >>> ((x >>> 28) + 4)) >>> 28 = 0 := by
    apply UInt32.toNat_inj.mp
    have hmod : ((x >>> 28) + 4).toNat % 32 = ((x >>> 28) + 4).toNat :=
      Nat.mod_eq_of_lt (by omega)
    rw [UInt32.toNat_shiftRight, UInt32.toNat_shiftRight, hmod, ← Nat.shiftRight_add,
      Nat.shiftRight_eq_div_pow]
    refine Nat.div_eq_of_lt (lt_of_lt_of_le x.toNat_lt ?_)
    exact Nat.pow_le_pow_right (by decide) (Nat.add_le_add_right hlow 28)
  rw [UInt32.shiftRight_xor, hnone, UInt32.zero_xor]

theorem output_injective : Injective output := by
  intro r s h
  simp only [output] at h
  rw [UInt32.xor_comm, UInt32.xor_comm (_ >>> (22 : UInt32))] at h
  have hproduct := eq_of_xor_shiftRight 22 _ _ (by decide) h
  have hshifted := eq_of_mul_odd 277803737 _ _ (by decide) hproduct
  have htop : r.state >>> 28 = s.state >>> 28 := by
    rw [← top_of_outputShift r.state, hshifted, top_of_outputShift s.state]
  obtain ⟨hlow, hhigh⟩ := toNat_outputShift s.state
  rw [htop, UInt32.xor_comm, UInt32.xor_comm _ s.state] at hshifted
  exact state_injective (eq_of_xor_shiftRight _ r.state s.state (by omega) hshifted)

theorem next_injective : Injective next := by
  intro r s h
  have hproduct := (UInt32.add_left_inj _).mp (congrArg state h)
  exact state_injective (eq_of_mul_odd 747796405 r.state s.state (by decide) hproduct)

/-- The seeded generator remembers nothing of its seed but the folded bits. -/
theorem ofSeed_eq_iff_fold (s t : Int) : ofSeed s = ofSeed t ↔ fold s = fold t := by
  constructor
  · intro h
    have hstate := (UInt32.add_left_inj _).mp (congrArg state h)
    exact scramble_injective (eq_of_mul_odd 1664525 _ _ (by decide) hstate)
  · intro h
    rw [ofSeed, ofSeed, h]

/-! ### Streams -/

/-- The number that is drawn after `n` others. -/
def stream (r : SeededRandom) (n : Nat) : UInt32 :=
  ((fun s => s.drawWord.2)^[n] r).drawWord.1

theorem stream_eq_output (r : SeededRandom) (n : Nat) : r.stream n = (next^[n + 1] r).output := by
  rw [iterate_succ_apply']
  rfl

theorem eq_of_stream_eq (r s : SeededRandom) (n : Nat) (h : r.stream n = s.stream n) : r = s := by
  rw [stream_eq_output, stream_eq_output] at h
  exact next_injective.iterate (n + 1) (output_injective h)

/-! ### Seeds -/

/-- The folded bits of a seed are the exclusive or of its lowest two groups of 32 bits. -/
theorem toNat_fold (seed : Int) :
    (fold seed).toNat = (seed % 2 ^ 32).toNat ^^^ (seed / 2 ^ 32 % 2 ^ 32).toNat := by
  have hwide : (BitVec.ofInt 64 seed).toNat = (seed % 2 ^ 64).toNat := BitVec.toNat_ofInt seed
  have hlow : (seed % 2 ^ 64).toNat % 2 ^ 32 = (seed % 2 ^ 32).toNat := by omega
  have hhigh : (seed % 2 ^ 64).toNat / 2 ^ 32 % 2 ^ 32 = (seed / 2 ^ 32 % 2 ^ 32).toNat := by omega
  rw [← hlow, ← hhigh, ← hwide]
  simp only [fold, UInt32.toNat_ofBitVec, BitVec.toNat_xor, BitVec.truncate_eq_setWidth,
    BitVec.toNat_setWidth, BitVec.toNat_ushiftRight, Nat.shiftRight_eq_div_pow]

/-- Seeds below `2 ^ 32` are not changed by folding. -/
theorem toNat_fold_of_small (seed : Int) (hlow : 0 ≤ seed) (hhigh : seed < 2 ^ 32) :
    ((fold seed).toNat : Int) = seed := by
  have hmod : seed % 2 ^ 32 = seed := Int.emod_eq_of_lt hlow hhigh
  have hdiv : seed / 2 ^ 32 = 0 := Int.ediv_eq_zero_of_lt hlow hhigh
  rw [toNat_fold, hmod, hdiv, Int.zero_emod, Int.toNat_zero, Nat.xor_zero]
  exact Int.toNat_of_nonneg hlow

/-- Two seeds make the same generator, and so the same stream, if they fold to the same 32 bits, and
otherwise their streams differ at every place. At any place all seeds below `2 ^ 32` draw different
numbers. -/
theorem stream_eq_iff_fold (s t : Int) (n : Nat) :
    (ofSeed s = ofSeed t ↔ fold s = fold t) ∧
    ((ofSeed s).stream n = (ofSeed t).stream n ↔ fold s = fold t) ∧
    Set.InjOn (fun seed => (ofSeed seed).stream n) {seed : Int | 0 ≤ seed ∧ seed < 2 ^ 32} := by
  have hstream : ∀ s t : Int, (ofSeed s).stream n = (ofSeed t).stream n ↔ fold s = fold t := by
    intro s t
    rw [← ofSeed_eq_iff_fold]
    exact ⟨eq_of_stream_eq _ _ n, fun h => by rw [h]⟩
  refine ⟨ofSeed_eq_iff_fold s t, hstream s t, ?_⟩
  rintro a ⟨halow, hahigh⟩ b ⟨hblow, hbhigh⟩ hab
  have hfold : fold a = fold b := (hstream a b).mp hab
  rw [← toNat_fold_of_small a halow hahigh, hfold, toNat_fold_of_small b hblow hbhigh]

end SeededRandom

end ProseGrammar
