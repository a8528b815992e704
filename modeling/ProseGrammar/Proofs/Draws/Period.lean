import Mathlib.Dynamics.PeriodicPts.Lemmas
import Mathlib.NumberTheory.Multiplicity
import ProseGrammar.Proofs.Draws.Streams

/-!
# The period of the seeded generator

The state returns after `2 ^ 32` steps and not before, so it takes all of its values on the way. As
the output of a state determines the state, every number of 32 bits is drawn once in any `2 ^ 32`
draws.
-/

namespace ProseGrammar

open Function

/-- A sum of powers of a number that leaves one when divided by four has as many factors of two as
its number of terms. -/
theorem two_pow_dvd_geom_sum_iff (a n k : Nat) (ha : a % 4 = 1) (hone : a ≠ 1) :
    2 ^ k ∣ ∑ i ∈ Finset.range n, a ^ i ↔ 2 ^ k ∣ n := by
  have hfour : (4 : ℤ) ∣ (a : ℤ) - 1 := by omega
  have hodd : ¬(2 : ℤ) ∣ a := by omega
  have hfinite : emultiplicity 2 ((a : ℤ) - 1) ≠ ⊤ :=
    finiteMultiplicity_iff_emultiplicity_ne_top.mp
      (Int.finiteMultiplicity_iff.mpr ⟨by decide, by omega⟩)
  have hsum : emultiplicity 2 (∑ i ∈ Finset.range n, (a : ℤ) ^ i) = emultiplicity 2 (n : ℤ) := by
    have hlift := Int.two_pow_sub_pow' n hfour hodd
    rw [one_pow, ← geom_sum_mul, emultiplicity_mul Int.prime_two, add_comm] at hlift
    exact ENat.add_right_injective_of_ne_top hfinite hlift
  have hcast : (∑ i ∈ Finset.range n, (a : ℤ) ^ i) = ((∑ i ∈ Finset.range n, a ^ i : ℕ) : ℤ) := by
    push_cast
    rfl
  rw [← Int.natCast_dvd_natCast, ← Int.natCast_dvd_natCast (n := n), ← hcast, Nat.cast_pow,
    Nat.cast_ofNat, pow_dvd_iff_le_emultiplicity, pow_dvd_iff_le_emultiplicity, hsum]

namespace SeededRandom

/-! ### Many steps at once -/

theorem toNat_next (r : SeededRandom) :
    r.next.state.toNat = (747796405 * r.state.toNat + 2891336453) % 2 ^ 32 := by
  have hmultiplier : (747796405 : UInt32).toNat = 747796405 := rfl
  have hincrement : (2891336453 : UInt32).toNat = 2891336453 := rfl
  rw [next, UInt32.toNat_add, UInt32.toNat_mul, hmultiplier, hincrement, Nat.mod_add_mod,
    Nat.mul_comm]

/-- Any number of steps adds a multiple of the first difference to the state. -/
theorem toNat_iterate_next (r : SeededRandom) (n : Nat) :
    (next^[n] r).state.toNat = (r.state.toNat + (∑ i ∈ Finset.range n, 747796405 ^ i) *
      (747796404 * r.state.toNat + 2891336453)) % 2 ^ 32 := by
  induction n with
  | zero =>
    rw [Finset.sum_range_zero, Nat.zero_mul, Nat.add_zero]
    exact (Nat.mod_eq_of_lt r.state.toNat_lt).symm
  | succ n ih =>
    rw [iterate_succ_apply', toNat_next, ih, geom_sum_succ]
    generalize ∑ i ∈ Finset.range n, 747796405 ^ i = sum
    rw [Nat.add_mod, Nat.mul_mod_mod, ← Nat.add_mod]
    congr 1
    ring

/-! ### The period -/

/-- A state returns after the multiples of `2 ^ 32` steps, and after no others. -/
theorem isPeriodicPt_next_iff (r : SeededRandom) (n : Nat) :
    IsPeriodicPt next n r ↔ 2 ^ 32 ∣ n := by
  have hodd : Nat.Coprime (2 ^ 32) (747796404 * r.state.toNat + 2891336453) := by
    refine Nat.Coprime.pow_left 32 (Nat.coprime_two_left.mpr ?_)
    rw [Nat.odd_iff]
    omega
  have hstate : IsPeriodicPt next n r ↔ (next^[n] r).state.toNat = r.state.toNat := by
    exact ⟨fun h => congrArg (fun s => s.state.toNat) h,
      fun h => state_injective (UInt32.toNat_inj.mp h)⟩
  have hreturn : ∀ x y : Nat, x < 2 ^ 32 → ((x + y) % 2 ^ 32 = x ↔ 2 ^ 32 ∣ y) := by
    intro x y hx
    omega
  rw [hstate, toNat_iterate_next, hreturn _ _ r.state.toNat_lt, hodd.dvd_mul_right]
  exact two_pow_dvd_geom_sum_iff 747796405 n 32 (by decide) (by decide)

theorem minimalPeriod_next (r : SeededRandom) : minimalPeriod next r = 2 ^ 32 := by
  apply Nat.dvd_antisymm
  · exact ((isPeriodicPt_next_iff r (2 ^ 32)).mpr (dvd_refl _)).minimalPeriod_dvd
  · exact (isPeriodicPt_next_iff r _).mp (isPeriodicPt_minimalPeriod next r)

/-- Draws less than a period apart differ. -/
theorem stream_injOn (r : SeededRandom) : Set.InjOn r.stream (Set.Iio (2 ^ 32)) := by
  intro i hi j hj hij
  rw [stream_eq_output, stream_eq_output] at hij
  have hstate : next^[i] r = next^[j] r := by
    have h := output_injective hij
    rw [iterate_succ_apply', iterate_succ_apply'] at h
    exact next_injective h
  have hinj := iterate_injOn_Iio_minimalPeriod (f := next) (x := r)
  rw [minimalPeriod_next] at hinj
  exact hinj hi hj hstate

/-- Every number of 32 bits is drawn within a period. -/
theorem exists_stream_eq (r : SeededRandom) (w : UInt32) : ∃ i < 2 ^ 32, r.stream i = w := by
  let draw : Fin (2 ^ 32) → Fin (2 ^ 32) := fun i => ⟨(r.stream i).toNat, (r.stream i).toNat_lt⟩
  have hinjective : Injective draw := by
    intro i j hij
    have hword : r.stream i = r.stream j := UInt32.toNat_inj.mp (congrArg Fin.val hij)
    exact Fin.ext (r.stream_injOn i.isLt j.isLt hword)
  obtain ⟨i, hi⟩ := Finite.surjective_of_injective hinjective ⟨w.toNat, w.toNat_lt⟩
  exact ⟨i, i.isLt, UInt32.toNat_inj.mp (congrArg Fin.val hi)⟩

theorem stream_add (r : SeededRandom) (start n : Nat) :
    r.stream (start + n) = (next^[start] r).stream n := by
  rw [stream_eq_output, stream_eq_output, ← iterate_add_apply]
  congr 2
  omega

/-- From every place in the stream of every seed, each number of 32 bits is drawn exactly once in
`2 ^ 32` draws, and the state there returns after the multiples of `2 ^ 32` steps only. -/
theorem stream_equidistributed (seed : Int) (start : Nat) :
    (∀ w : UInt32, ∃! i, i < 2 ^ 32 ∧ (ofSeed seed).stream (start + i) = w) ∧
      ∀ n, next^[start + n] (ofSeed seed) = next^[start] (ofSeed seed) ↔ 2 ^ 32 ∣ n := by
  let r : SeededRandom := next^[start] (ofSeed seed)
  constructor
  · intro w
    obtain ⟨i, hi, hw⟩ := r.exists_stream_eq w
    refine ⟨i, ⟨hi, by rw [stream_add, hw]⟩, ?_⟩
    rintro j ⟨hj, hjw⟩
    rw [stream_add] at hjw
    exact r.stream_injOn hj hi (hjw.trans hw.symm)
  · intro n
    rw [Nat.add_comm, iterate_add_apply]
    exact isPeriodicPt_next_iff r n

end SeededRandom

end ProseGrammar
