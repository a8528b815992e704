import Mathlib.Data.Nat.Bitwise
import ProseGrammar.Proofs.CommandLine.Batch
import ProseGrammar.Proofs.Draws.Streams

/-!
# Neighbouring seeds

The seeds of a batch follow each other, and up to `2 ^ 32` of them fold to different bits as long as
no multiple of `2 ^ 32` lies between them. There the upper half of a seed changes too, and groups of
seeds behind the multiple mirror groups in front of it: mirrored seeds draw the same numbers. The
groups are two seeds wide at every odd multiple, but `2 ^ 32` seeds wide at zero, so that the seeds
-1 and 0 are mirrored.
-/

namespace ProseGrammar

/-! ### Exclusive or -/

/-- The exclusive or of two numbers is all ones below a power of two if they are in one group of that
many numbers, at places that mirror each other. -/
theorem xor_add_one_eq_two_pow_iff (m x y : Nat) :
    (x ^^^ y) + 1 = 2 ^ m ↔ x / 2 ^ m = y / 2 ^ m ∧ x % 2 ^ m + y % 2 ^ m + 1 = 2 ^ m := by
  induction m generalizing x y with
  | zero => simp [Nat.mod_one]
  | succ m ih =>
    have hhalf : (x ^^^ y) / 2 = x / 2 ^^^ y / 2 := Nat.xor_div_two
    have hlast : (x ^^^ y) % 2 = (x + y) % 2 := Nat.xor_mod_two_eq
    have hstep := ih (x / 2) (y / 2)
    rw [← hhalf, Nat.div_div_eq_div_mul, Nat.div_div_eq_div_mul, ← Nat.pow_succ'] at hstep
    have hmod : ∀ z, z % 2 ^ (m + 1) = z % 2 + 2 * (z / 2 % 2 ^ m) := by
      intro z
      rw [Nat.pow_succ', Nat.mod_mul]
    have hx := hmod x
    have hy := hmod y
    have hpow : 2 ^ (m + 1) = 2 * 2 ^ m := Nat.pow_succ'
    constructor
    · intro h
      obtain ⟨hgroup, hmirror⟩ := hstep.mp (by omega)
      exact ⟨hgroup, by omega⟩
    · rintro ⟨hgroup, hmirror⟩
      have hones := hstep.mpr ⟨hgroup, by omega⟩
      omega

/-- The exclusive or of a number of `n + 1` bits and the next one is all ones up to the lowest bit
that is one in the next one, or up to the last bit if that one is zero. -/
theorem xor_next_add_one (n h : Nat) (hh : h < 2 ^ (n + 1)) :
    (h ^^^ (h + 1) % 2 ^ (n + 1)) + 1 = 2 * Nat.gcd (h + 1) (2 ^ n) := by
  induction n generalizing h with
  | zero =>
    have hcases : h = 0 ∨ h = 1 := by omega
    rcases hcases with rfl | rfl <;> rfl
  | succ n ih =>
    have hpow : 2 ^ (n + 1 + 1) = 2 * 2 ^ (n + 1) := Nat.pow_succ'
    have hhalf : (h ^^^ (h + 1) % 2 ^ (n + 1 + 1)) / 2 =
        h / 2 ^^^ (h + 1) % 2 ^ (n + 1 + 1) / 2 := Nat.xor_div_two
    have hlast : (h ^^^ (h + 1) % 2 ^ (n + 1 + 1)) % 2 = (h + (h + 1) % 2 ^ (n + 1 + 1)) % 2 :=
      Nat.xor_mod_two_eq
    -- an even number and the next one differ in the last bit; an odd one carries into its half
    rcases Nat.even_or_odd' h with ⟨g, rfl | rfl⟩
    · have hcoprime : Nat.gcd (2 * g + 1) (2 ^ (n + 1)) = 1 :=
        Nat.Coprime.pow_right _ (Nat.coprime_two_right.mpr (odd_two_mul_add_one g))
      have hsmall : (2 * g + 1) % 2 ^ (n + 1 + 1) = 2 * g + 1 := Nat.mod_eq_of_lt (by omega)
      have hsame : (2 * g + 1) / 2 = 2 * g / 2 := by omega
      rw [hsmall] at hhalf hlast ⊢
      rw [hsame, Nat.xor_self] at hhalf
      omega
    · have hgcd : Nat.gcd (2 * g + 1 + 1) (2 ^ (n + 1)) = 2 * Nat.gcd (g + 1) (2 ^ n) := by
        rw [Nat.pow_succ', ← Nat.gcd_mul_left]
        rfl
      have hg := ih g (by omega)
      have hdouble : (2 * g + 1 + 1) % 2 ^ (n + 1 + 1) = 2 * ((g + 1) % 2 ^ (n + 1)) := by
        rw [hpow, ← Nat.mul_mod_mul_left]
        rfl
      have hnext : 2 * ((g + 1) % 2 ^ (n + 1)) / 2 = (g + 1) % 2 ^ (n + 1) := by omega
      have hodd : (2 * g + 1) / 2 = g := by omega
      rw [hdouble, hnext, hodd] at hhalf
      rw [hdouble] at hlast ⊢
      omega

namespace SeededRandom

/-! ### Seeds that fold to the same bits -/

theorem fold_eq_iff (s t : Int) :
    fold s = fold t ↔ (s % 2 ^ 32).toNat ^^^ (t % 2 ^ 32).toNat =
      (s / 2 ^ 32 % 2 ^ 32).toNat ^^^ (t / 2 ^ 32 % 2 ^ 32).toNat := by
  rw [← UInt32.toNat_inj, toNat_fold, toNat_fold]
  generalize (s % 2 ^ 32).toNat = low
  generalize (t % 2 ^ 32).toNat = low'
  generalize (s / 2 ^ 32 % 2 ^ 32).toNat = high
  generalize (t / 2 ^ 32 % 2 ^ 32).toNat = high'
  have hsame : low ^^^ high ^^^ (low' ^^^ high') = low ^^^ low' ^^^ (high ^^^ high') := by
    rw [Nat.xor_assoc, ← Nat.xor_assoc high, Nat.xor_comm high low', Nat.xor_assoc low',
      ← Nat.xor_assoc]
  rw [← Nat.xor_eq_zero_iff, hsame, Nat.xor_eq_zero_iff]

/-- The number of seeds in a group at the multiple of `2 ^ 32` with a number: twice the greatest
power of two, at most `2 ^ 31`, that divides the number. -/
def mirrorWidth (block : Int) : Nat :=
  2 * Int.gcd block (2 ^ 31)

/-- Whether a multiple of `2 ^ 32` lies between two seeds, and both are in one group once the first
one is moved over it. -/
def ShareGroup (s t : Int) : Prop :=
  s / 2 ^ 32 < t / 2 ^ 32 ∧
    (s + 2 ^ 32) / mirrorWidth (t / 2 ^ 32) = t / mirrorWidth (t / 2 ^ 32)

/-- Whether two seeds are in one group, at places that mirror each other. -/
def Mirrored (s t : Int) : Prop :=
  ShareGroup s t ∧
    s % mirrorWidth (t / 2 ^ 32) + t % mirrorWidth (t / 2 ^ 32) + 1 = mirrorWidth (t / 2 ^ 32)

/-- The width of a group is a power of two that divides `2 ^ 32`. -/
theorem mirrorWidth_eq (block : Int) :
    ∃ m groups, mirrorWidth block = 2 ^ (m + 1) ∧ mirrorWidth block * groups = 2 ^ 32 := by
  obtain ⟨m, hm, hgcd⟩ :=
    (Nat.dvd_prime_pow Nat.prime_two).mp (Int.gcd_dvd_natAbs_right block (2 ^ 31))
  have hwidth : mirrorWidth block = 2 ^ (m + 1) := by rw [mirrorWidth, hgcd, Nat.pow_succ']
  refine ⟨m, 2 ^ (31 - m), hwidth, ?_⟩
  rw [hwidth, ← Nat.pow_add, show m + 1 + (31 - m) = 32 by omega]

/-- The upper halves of two blocks of seeds that follow each other. -/
theorem xor_blocks_add_one (block : Int) :
    (((block - 1) % 2 ^ 32).toNat ^^^ (block % 2 ^ 32).toNat) + 1 = mirrorWidth block := by
  have hlt : ((block - 1) % 2 ^ 32).toNat < 2 ^ (31 + 1) := by omega
  have hnext : (block % 2 ^ 32).toNat = (((block - 1) % 2 ^ 32).toNat + 1) % 2 ^ (31 + 1) := by
    omega
  have hgcd : Nat.gcd (((block - 1) % 2 ^ 32).toNat + 1) (2 ^ 31) = Int.gcd block (2 ^ 31) := by
    have hcast : ((((block - 1) % 2 ^ 32).toNat + 1 : Nat) : Int) =
        block + 2 ^ 31 * (-2 * ((block - 1) / 2 ^ 32)) := by omega
    have h := Int.gcd_add_mul_left_left (2 ^ 31) block (-2 * ((block - 1) / 2 ^ 32))
    rw [← hcast] at h
    exact h
  rw [hnext, xor_next_add_one 31 _ hlt, hgcd, mirrorWidth]

/-- Groups whose width divides `2 ^ 32` never lie across a multiple of it. -/
theorem group_of_block (width groups low : Nat) (block : Int) (hgroups : width * groups = 2 ^ 32) :
    (2 ^ 32 * block + low) / (width : Int) = groups * block + (low / width : Nat) ∧
      (2 ^ 32 * block + low) % (width : Int) = (low % width : Nat) := by
  have hwidth : (width : Int) ≠ 0 := by
    rintro hzero
    rw [Int.natCast_eq_zero.mp hzero] at hgroups
    omega
  have hcast : (2 : Int) ^ 32 = width * groups := by exact_mod_cast hgroups.symm
  rw [hcast, Int.mul_assoc]
  exact ⟨Int.mul_add_ediv_left _ _ hwidth, Int.mul_add_emod_self_left ..⟩

/-- Of two different seeds less than `2 ^ 32` apart the folded bits are the same exactly if the seeds
are mirrored. -/
theorem fold_eq_iff_mirrored (s t : Int) (hlow : s < t) (hhigh : t < s + 2 ^ 32) :
    fold s = fold t ↔ Mirrored s t := by
  rw [fold_eq_iff]
  rcases Int.lt_or_eq_of_le (show s / 2 ^ 32 ≤ t / 2 ^ 32 by omega) with hblock | hblock
  · have hprevious : s / 2 ^ 32 = t / 2 ^ 32 - 1 := by omega
    obtain ⟨m, groups, hwidth, hgroups⟩ := mirrorWidth_eq (t / 2 ^ 32)
    obtain ⟨low, hs⟩ := Int.eq_ofNat_of_zero_le (Int.emod_nonneg s (by decide : (2 : Int) ^ 32 ≠ 0))
    obtain ⟨low', ht⟩ := Int.eq_ofNat_of_zero_le (Int.emod_nonneg t (by decide : (2 : Int) ^ 32 ≠ 0))
    have hmoved := group_of_block _ groups low (t / 2 ^ 32) hgroups
    have hbefore := group_of_block _ groups low (t / 2 ^ 32 - 1) hgroups
    have hbehind := group_of_block _ groups low' (t / 2 ^ 32) hgroups
    rw [show 2 ^ 32 * (t / 2 ^ 32) + (low : Int) = s + 2 ^ 32 by omega] at hmoved
    rw [show 2 ^ 32 * (t / 2 ^ 32 - 1) + (low : Int) = s by omega] at hbefore
    rw [show 2 ^ 32 * (t / 2 ^ 32) + (low' : Int) = t by omega] at hbehind
    have hxor : low ^^^ low' =
        ((t / 2 ^ 32 - 1) % 2 ^ 32).toNat ^^^ (t / 2 ^ 32 % 2 ^ 32).toNat ↔
          low / mirrorWidth (t / 2 ^ 32) = low' / mirrorWidth (t / 2 ^ 32) ∧
          low % mirrorWidth (t / 2 ^ 32) + low' % mirrorWidth (t / 2 ^ 32) + 1 =
            mirrorWidth (t / 2 ^ 32) := by
      rw [← Nat.add_left_inj (n := 1), xor_blocks_add_one, hwidth]
      exact xor_add_one_eq_two_pow_iff (m + 1) low low'
    rw [hs, ht, Int.toNat_natCast, Int.toNat_natCast, hprevious, hxor, Mirrored, ShareGroup,
      hmoved.1, hbefore.2, hbehind.1, hbehind.2]
    omega
  · have hsame : ¬Mirrored s t := fun h => Int.ne_of_lt h.1.1 hblock
    rw [hblock, Nat.xor_self, Nat.xor_eq_zero_iff, iff_false_right hsame]
    omega

/-! ### Groups within a batch -/

theorem mirrorWidth_pos (block : Int) : (0 : Int) < mirrorWidth block := by
  obtain ⟨m, groups, hwidth, hgroups⟩ := mirrorWidth_eq block
  rw [hwidth]
  exact Int.natCast_pos.mpr (Nat.two_pow_pos _)

theorem shareGroup_of_mirrored (first s t last : Int) (hspan : last < first + 2 ^ 32)
    (hfirst : first ≤ s) (hlast : t ≤ last) (h : Mirrored s t) : ShareGroup first last := by
  obtain ⟨⟨hblock, hgroup⟩, -⟩ := h
  have hsame : t / 2 ^ 32 = last / 2 ^ 32 := by omega
  have hpos := mirrorWidth_pos (last / 2 ^ 32)
  rw [hsame] at hblock hgroup
  refine ⟨by omega, Int.le_antisymm ?_ ?_⟩
  · calc (first + 2 ^ 32) / mirrorWidth (last / 2 ^ 32)
        ≤ (s + 2 ^ 32) / mirrorWidth (last / 2 ^ 32) := Int.ediv_le_ediv hpos (by omega)
      _ = t / mirrorWidth (last / 2 ^ 32) := hgroup
      _ ≤ last / mirrorWidth (last / 2 ^ 32) := Int.ediv_le_ediv hpos hlast
  · exact Int.ediv_le_ediv hpos (by omega)

/-- The ends of a group are mirrored: the first seed of a group behind a multiple of `2 ^ 32`, and the
last one of that group in front of it. -/
theorem mirrored_ends (group block : Int) (groups : Nat)
    (hgroups : mirrorWidth block * groups = 2 ^ 32) (hstart : groups * block ≤ group)
    (hend : group < groups * (block + 1)) :
    Mirrored (mirrorWidth block * (group - groups) + (mirrorWidth block - 1))
      (mirrorWidth block * group) := by
  have hpos := mirrorWidth_pos block
  have hblock : ∀ block' : Int, 2 ^ 32 * block' = mirrorWidth block * (groups * block') := by
    intro block'
    rw [← Int.mul_assoc]
    exact congrArg (· * block') (by exact_mod_cast hgroups.symm)
  have hone := hblock 1
  rw [Int.mul_one, Int.mul_one] at hone
  have hlow : 2 ^ 32 * block ≤ mirrorWidth block * group := by
    rw [hblock]
    exact Int.mul_le_mul_of_nonneg_left hstart (Int.le_of_lt hpos)
  have hhigh : mirrorWidth block * (group + 1) ≤ 2 ^ 32 * (block + 1) := by
    rw [hblock]
    exact Int.mul_le_mul_of_nonneg_left hend (Int.le_of_lt hpos)
  rw [Int.mul_add, Int.mul_one] at hhigh
  have hfront : mirrorWidth block * (group - groups) = mirrorWidth block * group - 2 ^ 32 := by
    rw [Int.mul_sub, hone]
  have hmoved : mirrorWidth block * (group - groups) + (mirrorWidth block - 1) + 2 ^ 32 =
      mirrorWidth block * group + (mirrorWidth block - 1) := by omega
  have hnumber : mirrorWidth block * group / 2 ^ 32 = block := by omega
  have hdiv : (mirrorWidth block * group + ((mirrorWidth block : Int) - 1)) / mirrorWidth block =
      group := by
    rw [Int.mul_add_ediv_left _ _ (Int.ne_of_gt hpos),
      Int.ediv_eq_zero_of_lt (by omega) (by omega), Int.add_zero]
  have hmod : (mirrorWidth block * (group - groups) + ((mirrorWidth block : Int) - 1)) %
      mirrorWidth block = mirrorWidth block - 1 := by
    rw [Int.mul_add_emod_self_left, Int.emod_eq_of_lt (by omega) (by omega)]
  refine ⟨⟨by omega, ?_⟩, ?_⟩
  · rw [hnumber, hmoved, hdiv, Int.mul_ediv_cancel_left _ (Int.ne_of_gt hpos)]
  · rw [hnumber, hmod, Int.mul_emod_right]
    omega

theorem exists_mirrored_of_shareGroup (first last : Int) (h : ShareGroup first last) :
    ∃ s t, first ≤ s ∧ s < t ∧ t ≤ last ∧ Mirrored s t := by
  obtain ⟨hblock, hgroup⟩ := h
  obtain ⟨m, groups, -, hgroups⟩ := mirrorWidth_eq (last / 2 ^ 32)
  have hpos := mirrorWidth_pos (last / 2 ^ 32)
  have hcast : (groups * mirrorWidth (last / 2 ^ 32) : Int) = 2 ^ 32 := by
    rw [Int.mul_comm]
    exact_mod_cast hgroups
  have hwide : (mirrorWidth (last / 2 ^ 32) : Int) ≤ 2 ^ 32 := by
    exact_mod_cast Nat.le_of_dvd (by decide) (Dvd.intro groups hgroups)
  have hstart : groups * (last / 2 ^ 32) ≤ last / mirrorWidth (last / 2 ^ 32) := by
    refine Int.le_ediv_of_mul_le hpos ?_
    rw [Int.mul_right_comm, hcast]
    omega
  have hend : last / mirrorWidth (last / 2 ^ 32) < groups * (last / 2 ^ 32 + 1) := by
    refine Int.ediv_lt_of_lt_mul hpos ?_
    rw [Int.mul_right_comm, hcast]
    omega
  have hmirrored := mirrored_ends (last / mirrorWidth (last / 2 ^ 32)) (last / 2 ^ 32) groups hgroups
    hstart hend
  have hfirst := Int.lt_mul_ediv_self_add (x := first + 2 ^ 32) hpos
  have hlast := Int.mul_ediv_self_le (x := last) (Int.ne_of_gt hpos)
  rw [hgroup] at hfirst
  rw [Int.mul_sub, Int.mul_comm _ (groups : Int), hcast] at hmirrored
  exact ⟨_, _, by omega, by omega, hlast, hmirrored⟩

/-! ### Batches -/

open CommandLine

/-- The runs of a batch draw from the generators of successive seeds. Mirrored seeds draw the same
numbers at every place, and others in the batch differ at every place. So the streams of a batch are
pairwise different exactly if its first and its last seed are not in one group, in particular if no
multiple of `2 ^ 32` lies between them. -/
theorem streams_of_batch (seed : Int) (count : Nat) (hcount : count ≤ 2 ^ 32) :
    (∀ (stack : Nat) (g : Generator) (k : Knowledge) (options : RunOptions) (fresh : Int) (i : Nat),
      runOnce stack g k (options.runs seed count) fresh i = (do
        let e ← g.executeWithOn stack (.object k) (.int (seed + i)) (ofSeed (seed + i))
        executionLine stack options.json e)) ∧
    (∀ i j : Nat, i < j → j < count → ∀ n,
      (ofSeed (seed + i)).stream n = (ofSeed (seed + j)).stream n ↔
        Mirrored (seed + i) (seed + j)) ∧
    ((∀ i < count, ∀ j < count, i ≠ j →
        (ofSeed (seed + i)).stream ≠ (ofSeed (seed + j)).stream) ↔
      ¬ShareGroup seed (seed + count - 1)) := by
  have hpair : ∀ i j : Nat, i < j → j < count → ∀ n,
      (ofSeed (seed + i)).stream n = (ofSeed (seed + j)).stream n ↔
        Mirrored (seed + i) (seed + j) := by
    intro i j hij hj n
    rw [← fold_eq_iff_mirrored (seed + i) (seed + j) (by omega) (by omega), ← ofSeed_eq_iff_fold]
    exact ⟨eq_of_stream_eq _ _ n, fun h => by rw [h]⟩
  refine ⟨fun stack g k options fresh i => rfl, hpair, ?_⟩
  constructor
  · intro hdiffer hgroup
    obtain ⟨s, t, hs, hst, ht, hmirrored⟩ := exists_mirrored_of_shareGroup _ _ hgroup
    obtain ⟨i, rfl⟩ : ∃ i : Nat, s = seed + i := ⟨(s - seed).toNat, by omega⟩
    obtain ⟨j, rfl⟩ : ∃ j : Nat, t = seed + j := ⟨(t - seed).toNat, by omega⟩
    refine hdiffer i (by omega) j (by omega) (by omega) (funext fun n => ?_)
    exact (hpair i j (by omega) (by omega) n).mpr hmirrored
  · intro hgroup
    have hless : ∀ i j : Nat, i < j → j < count →
        (ofSeed (seed + i)).stream ≠ (ofSeed (seed + j)).stream := by
      intro i j hij hj hsame
      have hmirrored := (hpair i j hij hj 0).mp (congrFun hsame 0)
      exact hgroup (shareGroup_of_mirrored _ _ _ _ (by omega) (by omega) (by omega) hmirrored)
    intro i hi j hj hne
    rcases Nat.lt_or_gt_of_ne hne with hij | hji
    · exact hless i j hij hj
    · exact (hless j i hji hi).symm

/-- From seed 4 on, all `2 ^ 32` seeds have streams of their own, although a multiple of `2 ^ 32` lies
between them. -/
theorem streams_of_batch_at_four :
    2 ^ 32 ≤ 2 ^ 32 ∧ ∀ i < 2 ^ 32, ∀ j < 2 ^ 32, i ≠ j →
      (ofSeed (4 + (i : Nat))).stream ≠ (ofSeed (4 + (j : Nat))).stream := by
  refine ⟨Nat.le_refl _, ((streams_of_batch 4 (2 ^ 32) (Nat.le_refl _)).2.2).mpr ?_⟩
  rintro ⟨-, hgroup⟩
  exact absurd hgroup (by decide)

/-- The batch of two seeds from -1 on draws the same numbers twice. -/
theorem stream_of_minusOne :
    ¬∀ (seed : Int) (count : Nat), count ≤ 2 ^ 32 → ∀ i < count, ∀ j < count, i ≠ j →
      (ofSeed (seed + i)).stream ≠ (ofSeed (seed + j)).stream := by
  intro h
  refine h (-1) 2 (by decide) 0 (by decide) 1 (by decide) (by decide) ?_
  have hfold : fold (-1 + (0 : Nat)) = fold (-1 + (1 : Nat)) := by decide
  rw [(ofSeed_eq_iff_fold _ _).mpr hfold]

end SeededRandom

end ProseGrammar
