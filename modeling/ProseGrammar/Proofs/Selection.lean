import Mathlib.Algebra.Order.BigOperators.Group.List
import Mathlib.Algebra.Order.Floor.Div
import Mathlib.Data.Rat.Floor
import Mathlib.Data.Set.Card
import Mathlib.Order.Interval.Finset.Nat
import Mathlib.Tactic.Linarith
import ProseGrammar.Evaluation
import ProseGrammar.Proofs.Binary64

/-!
# Proportional selection

Carried out on exact rationals, selection by weight gives every item the part of the unit interval
that its weight is of the sum: the running totals cut the interval into pieces, and a draw selects the
item whose piece it lies in. The running total always reaches the target, so the last item is never
taken for want of another one. Selection by count gives equally many draws to every item, up to one.
-/

namespace ProseGrammar

variable {σ : Type}

namespace Selection

variable {m : Type → Type} [Monad m] {α β : Type}

/-! ### Running totals -/

/-- Where the running total reaches a draw's share of the sum; the number of weights if it does
nowhere, and only then is the last item selected for want of another one. -/
def stop (a : Arithmetic m α β) (weights : List β) (draw : α) : m Nat := do
  let target ← a.mul draw (← sum a weights)
  reach a target a.start weights

theorem weightedIndex_eq_stop [LawfulMonad m] (a : Arithmetic m α β) (weights : List β) (draw : α) :
    weightedIndex a weights draw = (fun i => min i (weights.length - 1)) <$> stop a weights draw := by
  simp [weightedIndex, stop]

theorem reach_cons (a : Arithmetic Id α β) (target before : α) (w : β) (rest : List β) :
    (reach a target before (w :: rest)).run =
      if a.atMost target (a.add before w).run then 0
      else (reach a target (a.add before w).run rest).run + 1 := by
  by_cases h : a.atMost target (a.add before w).run = true
  · rw [if_pos h]
    exact if_pos h
  · rw [if_neg h]
    exact if_neg h

/-- The arithmetic of weights that are read as exact rationals. -/
def Arithmetic.exact (reading : β → ℚ) : Arithmetic Id ℚ β :=
  ⟨0, 0, fun total w => total + reading w, fun a b => a * b, fun a b => decide (a ≤ b)⟩

/-- The sum of the first `i` weights. -/
def runningTotal (ws : List ℚ) (i : Nat) : ℚ :=
  (ws.take i).sum

@[simp] theorem runningTotal_zero (ws : List ℚ) : runningTotal ws 0 = 0 := rfl

@[simp] theorem runningTotal_cons (w : ℚ) (ws : List ℚ) (i : Nat) :
    runningTotal (w :: ws) (i + 1) = w + runningTotal ws i := List.sum_cons

theorem runningTotal_length (ws : List ℚ) : runningTotal ws ws.length = ws.sum := by
  rw [runningTotal, List.take_length]

theorem runningTotal_mono {ws : List ℚ} (hpos : ∀ w ∈ ws, 0 < w) {i j : Nat} (hij : i ≤ j) :
    runningTotal ws i ≤ runningTotal ws j := by
  obtain ⟨k, rfl⟩ := Nat.exists_eq_add_of_le hij
  rw [runningTotal, runningTotal, List.take_add, List.sum_append, le_add_iff_nonneg_right]
  refine List.sum_nonneg fun w hw => ?_
  exact (hpos w (List.mem_of_mem_drop (List.mem_of_mem_take hw))).le

section

variable (reading : β → ℚ)

theorem sum_exact (weights : List β) :
    (sum (.exact reading) weights).run = (weights.map reading).sum := by
  have hfold : ∀ start : ℚ, (weights.foldlM (Arithmetic.exact reading).add start).run =
      start + (weights.map reading).sum := by
    induction weights with
    | nil => exact fun start => (add_zero start).symm
    | cons w rest ih =>
      intro start
      rw [List.map_cons, List.sum_cons, ← add_assoc]
      exact ih (start + reading w)
  exact (hfold 0).trans (zero_add _)

theorem reach_exact_cons (target before : ℚ) (w : β) (rest : List β) :
    (reach (.exact reading) target before (w :: rest)).run =
      if target ≤ before + reading w then 0
      else (reach (.exact reading) target (before + reading w) rest).run + 1 := by
  have hadd : ((Arithmetic.exact reading).add before w).run = before + reading w := rfl
  have hatMost : (Arithmetic.exact reading).atMost target (before + reading w) =
      decide (target ≤ before + reading w) := rfl
  simp only [reach_cons, hadd, hatMost, decide_eq_true_eq]

/-- The running total is below the target up to the place where it stops, and reaches it there unless
there is no weight left. -/
theorem reach_exact (target : ℚ) (weights : List β) (before : ℚ) :
    let i := (reach (.exact reading) target before weights).run
    i ≤ weights.length ∧
      (∀ j < i, before + runningTotal (weights.map reading) (j + 1) < target) ∧
      (i < weights.length → target ≤ before + runningTotal (weights.map reading) (i + 1)) := by
  induction weights generalizing before with
  | nil => exact ⟨le_rfl, fun j hj => absurd hj (Nat.not_lt_zero j), fun h => absurd h (lt_irrefl 0)⟩
  | cons w rest ih =>
    obtain ⟨hle, hbelow, hreached⟩ := ih (before + reading w)
    rw [reach_exact_cons]
    split
    next hw =>
      refine ⟨Nat.zero_le _, fun j hj => absurd hj (Nat.not_lt_zero j), fun _ => ?_⟩
      simpa using hw
    next hw =>
      refine ⟨Nat.succ_le_succ hle, fun j hj => ?_, fun h => ?_⟩
      · cases j with
        | zero => simpa using hw
        | succ j =>
          have hj := hbelow j (Nat.lt_of_succ_lt_succ hj)
          rwa [add_assoc, ← runningTotal_cons] at hj
      · have hrest := hreached (Nat.lt_of_succ_lt_succ h)
        rwa [add_assoc, ← runningTotal_cons] at hrest

end

/-! ### The selected item -/

/-- Whether a draw's share of the sum lies in the piece that belongs to an item: above the total of
the weights in front of it and at most the total with its own. Of the draw 0, which is above no
total, the first item is the one. -/
structure Selects (ws : List ℚ) (u : ℚ) (i : Nat) : Prop where
  inRange : i < ws.length
  above : runningTotal ws i < u * ws.sum ∨ u = 0 ∧ i = 0
  reached : u * ws.sum ≤ runningTotal ws (i + 1)

theorem Selects.le {ws : List ℚ} (hpos : ∀ w ∈ ws, 0 < w) {u v : ℚ} {i j : Nat} (huv : u ≤ v)
    (hi : Selects ws u i) (hj : Selects ws v j) : i ≤ j := by
  by_contra hlt
  rcases hi.above with habove | ⟨_, rfl⟩
  · have hsum : 0 ≤ ws.sum := List.sum_nonneg fun w hw => (hpos w hw).le
    have hshare : u * ws.sum ≤ v * ws.sum := mul_le_mul_of_nonneg_right huv hsum
    have htotal : runningTotal ws (j + 1) ≤ runningTotal ws i :=
      runningTotal_mono hpos (by omega)
    have hreached := hj.reached
    linarith
  · exact hlt (Nat.zero_le j)

theorem Selects.unique {ws : List ℚ} (hpos : ∀ w ∈ ws, 0 < w) {u : ℚ} {i j : Nat}
    (hi : Selects ws u i) (hj : Selects ws u j) : i = j :=
  le_antisymm (hi.le hpos le_rfl hj) (hj.le hpos le_rfl hi)

section

variable {reading : β → ℚ} {weights : List β}

theorem stop_exact (u : ℚ) : (stop (.exact reading) weights u).run =
    (reach (.exact reading) (u * (weights.map reading).sum) 0 weights).run := by
  rw [← sum_exact]
  rfl

theorem sum_pos_of_weights (hne : weights ≠ []) (hpos : ∀ w ∈ weights, 0 < reading w) :
    0 < (weights.map reading).sum :=
  List.sum_pos _ (List.forall_mem_map.mpr hpos) (by simpa using hne)

/-- The running total of all weights is above the target, so it does not pass the last one. -/
theorem stop_lt_length (hne : weights ≠ []) (hpos : ∀ w ∈ weights, 0 < reading w) {u : ℚ}
    (hu : u < 1) : (stop (.exact reading) weights u).run < weights.length := by
  obtain ⟨hle, hbelow, _⟩ := reach_exact reading (u * (weights.map reading).sum) weights 0
  rw [← stop_exact] at hle hbelow
  refine lt_of_le_of_ne hle fun hlength => ?_
  obtain ⟨n, hn⟩ := Nat.exists_eq_add_one_of_ne_zero (List.length_pos_iff.mpr hne).ne'
  have hlast := hbelow n (by omega)
  rw [zero_add, ← hn, ← List.length_map reading, runningTotal_length] at hlast
  have hshare := mul_lt_mul_of_pos_right hu (sum_pos_of_weights hne hpos)
  linarith

theorem selects_stop (hne : weights ≠ []) (hpos : ∀ w ∈ weights, 0 < reading w) {u : ℚ}
    (hu : 0 ≤ u) (hu' : u < 1) :
    Selects (weights.map reading) u (stop (.exact reading) weights u).run := by
  have hlt := stop_lt_length hne hpos hu'
  obtain ⟨_, hbelow, hreached⟩ := reach_exact reading (u * (weights.map reading).sum) weights 0
  simp only [← stop_exact, zero_add] at hbelow hreached
  generalize (stop (.exact reading) weights u).run = i at hlt hbelow hreached
  refine ⟨by rwa [List.length_map], ?_, hreached hlt⟩
  cases i with
  | succ i => exact .inl (hbelow i (Nat.lt_succ_self i))
  | zero =>
    rcases hu.eq_or_lt with rfl | hu
    · exact .inr ⟨rfl, rfl⟩
    · exact .inl (mul_pos hu (sum_pos_of_weights hne hpos))

/-- Weights are selected in proportion if a draw selects the one item in whose piece it lies, without
falling back to the last one, and a smaller draw no later one. -/
structure Proportional (reading : β → ℚ) (weights : List β) : Prop where
  selects_iff : ∀ u, 0 ≤ u → u < 1 → ∀ i,
    Selects (weights.map reading) u i ↔ i = (weightedIndex (.exact reading) weights u).run
  stops : ∀ u, 0 ≤ u → u < 1 → (stop (.exact reading) weights u).run < weights.length
  mono : ∀ u v, 0 ≤ u → u ≤ v → v < 1 →
    (weightedIndex (.exact reading) weights u).run ≤ (weightedIndex (.exact reading) weights v).run

theorem proportional (hne : weights ≠ []) (hpos : ∀ w ∈ weights, 0 < reading w) :
    Proportional reading weights := by
  have hpos' : ∀ w ∈ weights.map reading, 0 < w := List.forall_mem_map.mpr hpos
  have hselects : ∀ u, 0 ≤ u → u < 1 →
      Selects (weights.map reading) u (weightedIndex (.exact reading) weights u).run := by
    intro u hu hu'
    have hindex : (weightedIndex (.exact reading) weights u).run =
        (stop (.exact reading) weights u).run := by
      rw [weightedIndex_eq_stop]
      exact Nat.min_eq_left (Nat.le_sub_one_of_lt (stop_lt_length hne hpos hu'))
    rw [hindex]
    exact selects_stop hne hpos hu hu'
  refine ⟨fun u hu hu' i => ⟨fun hi => hi.unique hpos' (hselects u hu hu'), ?_⟩,
    fun _ _ hu' => stop_lt_length hne hpos hu', ?_⟩
  · rintro rfl
    exact hselects u hu hu'
  · intro u v hu huv hv
    exact (hselects u hu (huv.trans_lt hv)).le hpos' huv (hselects v (hu.trans huv) hv)

/-- The selected position depends on nothing but what the weights are read as. -/
theorem weightedIndex_exact (u : ℚ) : (weightedIndex (.exact reading) weights u).run =
    (weightedIndex (.exact id) (weights.map reading) u).run := by
  have hreach : ∀ target before : ℚ, (reach (.exact reading) target before weights).run =
      (reach (.exact id) target before (weights.map reading)).run := by
    induction weights with
    | nil => exact fun target before => rfl
    | cons w rest ih =>
      intro target before
      rw [List.map_cons, reach_exact_cons, reach_exact_cons, ih]
      rfl
  have hstop : (stop (.exact reading) weights u).run =
      (stop (.exact id) (weights.map reading) u).run := by
    rw [stop_exact, stop_exact, hreach, List.map_id]
  rw [weightedIndex_eq_stop, weightedIndex_eq_stop, List.length_map]
  exact congrArg (min · (weights.length - 1)) hstop

end

/-! ### Weights that are doubles -/

section

open Arithmetic

theorem sum_values (ws : List Float) (before : Float) :
    (ws.map Value.float).foldlM addWeight (.float before) =
      .ok (.float (ws.foldlM (total (α := Float)).add before).run) := by
  induction ws generalizing before with
  | nil => rfl
  | cons w rest ih => exact ih (before + w)

theorem reach_values (target : Float) (ws : List Float) (before : Float) :
    reach values (.float target) (.float before) (ws.map Value.float) =
      .ok (reach total target before ws).run := by
  induction ws generalizing before with
  | nil => rfl
  | cons w rest ih =>
    have hvalues : reach values (.float target) (.float before) (.float w :: rest.map Value.float) =
        if Number.atMost (.float target) (.float (before + w)) then .ok 0
        else (· + 1) <$> reach values (.float target) (.float (before + w)) (rest.map Value.float) :=
      rfl
    have htotal : (total.add before w).run = before + w := rfl
    rw [List.map_cons, hvalues, reach_cons, htotal, atMost_float, ih]
    show _ = Except.ok (if decide (target ≤ before + w) = true then _ else _)
    split <;> rfl

/-- Alternatives and items whose weights are the same doubles are selected at the same position. -/
theorem weightedIndex_values (ws : List Float) (draw : Float) :
    weightedIndex .values (ws.map Value.float) (.float draw) =
      .ok (weightedIndex .total ws draw).run := by
  have hsum : ∀ w rest, sum values ((w :: rest).map Value.float) =
      .ok (.float (sum total (w :: rest)).run) := fun w rest => sum_values rest (0 + w)
  have hindex : ∀ share : Float,
      (reach values (.float share) (.float 0) (ws.map Value.float) >>= fun index =>
        pure (min index ((ws.map Value.float).length - 1))) =
      .ok (min (reach total share 0 ws).run (ws.length - 1)) := by
    intro share
    rw [reach_values, List.length_map]
    rfl
  cases ws with
  | nil => rfl
  | cons w rest =>
    show (sum values ((w :: rest).map Value.float) >>= fun total => _) = _
    rw [hsum]
    exact hindex (draw * (sum total (w :: rest)).run)

end

/-! ### By count -/

/-- Selection by count on exact rationals. -/
def exactUniformIndex (count : Nat) (draw : ℚ) : Except Fault Nat :=
  uniformIndex (fun x => .ok ⌊x⌋) (fun n => .ok (n : ℚ)) count draw

/-- The draw `k / total` selects the integral part of its share of the count. -/
theorem exactUniformIndex_div {count k total : Nat} (hcount : 0 < count) (hk : k < total) :
    exactUniformIndex count ((k : ℚ) / total) = .ok (k * count / total) := by
  have hshare : (k : ℚ) / total * count = ((k * count : ℕ) : ℚ) / total := by
    rw [Nat.cast_mul, div_mul_eq_mul_div]
  have hfloor : ⌊(k : ℚ) / total * count⌋ = ((k * count / total : ℕ) : ℤ) := by
    rw [hshare, Rat.floor_natCast_div_natCast, Int.natCast_ediv]
  have hlt : k * count / total < count := by
    rw [Nat.div_lt_iff_lt_mul (by omega), Nat.mul_comm count]
    exact Nat.mul_lt_mul_of_pos_right hk hcount
  show position count ⌊(k : ℚ) / total * count⌋ = _
  rw [hfloor]
  generalize k * count / total = i at hlt
  rw [position, if_neg (by omega), if_pos (by omega), Int.toNat_natCast]

/-- From one sum to the next, quotients that are rounded up grow by a quotient rounded down or up. -/
theorem ceilDiv_add_sub (a b : Nat) {n : Nat} (hn : 0 < n) :
    (a + b) ⌈/⌉ n - a ⌈/⌉ n = b / n ∨ (a + b) ⌈/⌉ n - a ⌈/⌉ n = b ⌈/⌉ n := by
  have hpred : n - 1 < n := Nat.sub_lt hn Nat.one_pos
  have hup : ∀ c, c ⌈/⌉ n = (c + (n - 1)) / n := fun c => by
    rw [Nat.ceilDiv_eq_add_pred_div, Nat.add_sub_assoc hn]
  have hsum : (a + b + (n - 1)) / n =
      (a + (n - 1)) / n + b / n + if n ≤ (a + (n - 1)) % n + b % n then 1 else 0 := by
    rw [Nat.add_right_comm, Nat.add_div hn]
  have hceil : (b + (n - 1)) / n = b / n + if n ≤ b % n + (n - 1) then 1 else 0 := by
    rw [Nat.add_div hn, Nat.div_eq_of_lt hpred, Nat.mod_eq_of_lt hpred, Nat.add_zero]
  have hmod := Nat.mod_lt (a + (n - 1)) hn
  rw [hup, hup, hup, hsum, hceil, Nat.add_assoc, Nat.add_sub_cancel_left]
  by_cases hcarry : n ≤ (a + (n - 1)) % n + b % n
  · have hover : n ≤ b % n + (n - 1) := by omega
    rw [if_pos hcarry, if_pos hover]
    exact .inr rfl
  · rw [if_neg hcarry]
    exact .inl rfl

/-- The draws of a position are those from one multiple of `total / count`, rounded up, to the next. -/
theorem draws_of_position {count total i : Nat} (hi : i < count) (htotal : 0 < total) :
    {k : ℕ | k < total ∧ k * count / total = i} =
      Finset.Ico ((i * total) ⌈/⌉ count) ((i * total + total) ⌈/⌉ count) := by
  have hcount : 0 < count := by omega
  have hlast : i * total + total ≤ count * total := by
    rw [← Nat.succ_mul]
    exact Nat.mul_le_mul_right total hi
  ext k
  have hupper : (k < (i * total + total) ⌈/⌉ count) ↔ count * k < i * total + total := by
    rw [← not_le, ceilDiv_le_iff_le_mul hcount, not_le]
  have hquotient : k * count / total = i ↔ i * total ≤ count * k ∧ count * k < i * total + total := by
    rw [Nat.div_eq_iff htotal, Nat.mul_comm k]
    omega
  rw [Set.mem_ofPred_eq, Finset.coe_Ico, Set.mem_Ico, ceilDiv_le_iff_le_mul hcount, hupper, hquotient]
  exact and_iff_right_of_imp fun h => Nat.lt_of_mul_lt_mul_left (h.2.trans_le hlast)

/-- Each of `count` positions has `total / count` of the draws, rounded down or up. -/
theorem ncard_draws {count total i : Nat} (hi : i < count) (htotal : 0 < total) :
    {k : ℕ | k < total ∧ k * count / total = i}.ncard = total / count ∨
      {k : ℕ | k < total ∧ k * count / total = i}.ncard = total ⌈/⌉ count := by
  rw [draws_of_position hi htotal, Set.ncard_coe_finset, Nat.card_Ico]
  exact ceilDiv_add_sub (i * total) total (by omega)

/-- Among the draws `k / total` each position is selected equally often, up to one. -/
theorem ncard_exactUniformIndex {count total i : Nat} (hi : i < count) (htotal : 0 < total) :
    {k : ℕ | k < total ∧ exactUniformIndex count ((k : ℚ) / total) = .ok i}.ncard = total / count ∨
      {k : ℕ | k < total ∧ exactUniformIndex count ((k : ℚ) / total) = .ok i}.ncard =
        total ⌈/⌉ count := by
  have hdraws : {k : ℕ | k < total ∧ exactUniformIndex count ((k : ℚ) / total) = .ok i} =
      {k : ℕ | k < total ∧ k * count / total = i} := by
    ext k
    refine and_congr_right fun hk => ?_
    rw [exactUniformIndex_div (by omega) hk, Except.ok.injEq]
  rw [hdraws]
  exact ncard_draws hi htotal

end Selection

/-! ### Alternatives and items -/

/-- The weights by which a rule picks an alternative. -/
def Rule.weights (r : Rule) : List Value :=
  r.alternatives.map Alternative.weight

/-- The weights by which an item of a list is selected. -/
def Value.itemWeights (items : List Value) : List Float :=
  (items.map choice).map Choice.weight

/-- What comes of selecting the item at a position. -/
def itemAt [DrawSource σ] (items : List Value) (c : Context σ) (index : Nat) :
    Except Fault (Outcome σ) :=
  match (items.map Value.choice)[index]? with
  | some choice => .ok ⟨choice.value, { c with draws := (DrawSource.draw c.draws).2 }⟩
  | none => .error .indexRange

theorem pick?_eq [DrawSource σ] (r : Rule) (hr : 2 ≤ r.alternatives.length) (draws : σ) :
    r.pick? draws = (fun i => (r.alternatives[i]?, (DrawSource.draw draws).2)) <$>
      Selection.weightedIndex .values r.weights (.float (DrawSource.draw draws).1) := by
  obtain ⟨name, alternatives⟩ := r
  cases alternatives with
  | nil => exact absurd hr (by simp)
  | cons first rest =>
    cases rest with
    | nil => exact absurd hr (by simp)
    | cons second rest =>
      show Selection.weightedIndex _ _ _ >>= _ = _
      rw [map_eq_pure_bind]
      rfl

theorem selectItem_weighted [DrawSource σ] (items : List Value)
    (h : ∃ item ∈ items, item.choice.isWeighted = true) (c : Context σ) :
    selectItem items c = itemAt items c
      (Selection.weightedIndex .total (Value.itemWeights items) (DrawSource.draw c.draws).1).run := by
  obtain ⟨item, hitem, hweighted⟩ := h
  have hne : items.isEmpty = false := by
    cases items with
    | nil => cases hitem
    | cons first rest => rfl
  have hany : ((items.map Value.choice).any fun choice => choice.isWeighted) = true := by
    rw [List.any_map]
    exact List.any_eq_true.mpr ⟨item, hitem, hweighted⟩
  unfold selectItem
  simp only [hne, hany, Bool.false_eq_true, if_false, if_true, pure_bind]
  rfl

theorem selectItem_plain [DrawSource σ] (items : List Value) (hne : items ≠ [])
    (h : ∀ item ∈ items, item.choice.isWeighted = false) (c : Context σ) :
    selectItem items c = Selection.uniformIndex Selection.floorFloat (Number.floatOfInt ·)
      items.length (DrawSource.draw c.draws).1 >>= itemAt items c := by
  have hany : ((items.map Value.choice).any fun choice => choice.isWeighted) = false := by
    rw [List.any_map]
    exact List.any_eq_false.mpr fun item hitem => by simp [h item hitem]
  unfold selectItem
  simp only [List.isEmpty_iff, hne, hany, Bool.false_eq_true, if_false, List.length_map]
  rfl

/-- Whether random selection is proportional and complete, with the weights of alternatives and those
of items read as rationals. -/
structure Selection.Complete (σ : Type) [DrawSource σ] (value : Value → ℚ) (double : Float → ℚ) :
    Prop where
  -- a rule with several alternatives
  alternative : ∀ r : Rule, 2 ≤ r.alternatives.length → ∀ draws : σ,
    r.pick? draws = (fun i => (r.alternatives[i]?, (DrawSource.draw draws).2)) <$>
      weightedIndex .values r.weights (.float (DrawSource.draw draws).1)
  alternative_proportional : ∀ r : Rule, 2 ≤ r.alternatives.length →
    (∀ w ∈ r.weights, 0 < value w) → Proportional value r.weights
  -- a list with weighted items
  item : ∀ items : List Value, (∃ item ∈ items, item.choice.isWeighted = true) →
    ∀ c : Context σ, selectItem items c = itemAt items c
      (weightedIndex .total (Value.itemWeights items) (DrawSource.draw c.draws).1).run
  item_proportional : ∀ items : List Value, (∃ item ∈ items, item.choice.isWeighted = true) →
    (∀ w ∈ Value.itemWeights items, 0 < double w) → Proportional double (Value.itemWeights items)
  -- the same weights and the same draw
  same_position : ∀ (r : Rule) (items : List Value) (u : ℚ),
    r.weights.map value = (Value.itemWeights items).map double →
      (weightedIndex (.exact value) r.weights u).run =
        (weightedIndex (.exact double) (Value.itemWeights items) u).run
  same_position_doubles : ∀ (ws : List Float) (draw : Float),
    weightedIndex .values (ws.map Value.float) (.float draw) = .ok (weightedIndex .total ws draw).run
  -- a list without weighted items
  plain : ∀ items : List Value, items ≠ [] → (∀ item ∈ items, item.choice.isWeighted = false) →
    ∀ c : Context σ, selectItem items c =
      uniformIndex floorFloat (Number.floatOfInt ·) items.length (DrawSource.draw c.draws).1 >>=
        itemAt items c
  plain_share : ∀ items : List Value, items ≠ [] →
    (∀ item ∈ items, item.choice.isWeighted = false) → ∀ i < items.length,
      {k : ℕ | k < 2 ^ 32 ∧ exactUniformIndex items.length ((k : ℚ) / 2 ^ 32) = .ok i}.ncard =
        2 ^ 32 / items.length ∨
      {k : ℕ | k < 2 ^ 32 ∧ exactUniformIndex items.length ((k : ℚ) / 2 ^ 32) = .ok i}.ncard =
        2 ^ 32 ⌈/⌉ items.length

/-- Random selection is proportional and complete, whatever rationals the weights are read as. A rule
with several alternatives and a list with weighted items select by positive weights in proportion to
them, and at the same position for the same weights and draw, on doubles too. In a list without
weighted items every item is selected by as many of the `2 ^ 32` draws as its share of them, rounded
down or up. -/
theorem selection_proportional [DrawSource σ] (value : Value → ℚ) (double : Float → ℚ) :
    Selection.Complete σ value double where
  alternative := pick?_eq
  alternative_proportional r hr hpos := by
    refine Selection.proportional (fun hnil => ?_) hpos
    rw [List.map_eq_nil_iff.mp hnil] at hr
    exact absurd hr (by simp)
  item := selectItem_weighted
  item_proportional items hitems hpos := by
    obtain ⟨item, hitem, _⟩ := hitems
    refine Selection.proportional (fun hnil => ?_) hpos
    rw [List.map_eq_nil_iff.mp (List.map_eq_nil_iff.mp hnil)] at hitem
    cases hitem
  same_position r items u hsame := by
    rw [Selection.weightedIndex_exact, hsame, ← Selection.weightedIndex_exact]
  same_position_doubles := Selection.weightedIndex_values
  plain := selectItem_plain
  plain_share items _ _ i hi := by
    have hdraws : (2 : ℚ) ^ 32 = ((2 ^ 32 : ℕ) : ℚ) := by norm_num
    rw [hdraws]
    exact Selection.ncard_exactUniformIndex hi (by norm_num)

/-- The exact value of a number; that of a double that has none is 0. -/
def Number.rational : Number → ℚ
  | .int n => n
  | .float x =>
    match Binary64.ofFloat x with
    | .finite negative m e => Binary64.signed negative m * (2 : ℚ) ^ e
    | _ => 0

def Value.rational (v : Value) : ℚ :=
  (v.asNumber?.map Number.rational).getD 0

/-- Three alternatives of the weights 1, 2 and 3. -/
def Rule.lottery : Rule :=
  ⟨"start", [⟨[.literal (.text "one")], .float 1⟩, ⟨[.literal (.text "two")], .float 2⟩,
    ⟨[.literal (.text "three")], .float 3⟩]⟩

/-- Three items of the same weights; the first one has its weight for want of another. -/
def Value.lottery : List Value :=
  [.text "one", .weighted (.text "two") 2, .weighted (.text "three") 3]

theorem selection_proportional_lottery :
    (Selection.weightedIndex (.exact Value.rational) Rule.lottery.weights (1 / 2)).run = 1 ∧
      (Selection.weightedIndex (.exact fun x => (Number.float x).rational)
        (Value.itemWeights Value.lottery) (1 / 2)).run = 1 ∧
      ∀ i < 3,
        {k : ℕ | k < 2 ^ 32 ∧ Selection.exactUniformIndex 3 ((k : ℚ) / 2 ^ 32) = .ok i}.ncard =
          1431655765 ∨
        {k : ℕ | k < 2 ^ 32 ∧ Selection.exactUniformIndex 3 ((k : ℚ) / 2 ^ 32) = .ok i}.ncard =
          1431655766 := by
  have hone : Binary64.ofFloat 1 = .finite false (2 ^ 52) (-52) := by decide +kernel
  have htwo : Binary64.ofFloat 2 = .finite false (2 ^ 52) (-51) := by decide +kernel
  have hthree : Binary64.ofFloat 3 = .finite false (3 * 2 ^ 51) (-51) := by decide +kernel
  have hweights : (Value.itemWeights Value.lottery).map (fun x => (Number.float x).rational) =
      [1, 2, 3] := by
    simp only [Value.itemWeights, Value.lottery, List.map_cons, List.map_nil, Value.choice,
      Number.rational, hone, htwo, hthree, Binary64.signed]
    norm_num
  have hsame : Rule.lottery.weights.map Value.rational = [1, 2, 3] := hweights
  have hpos : ∀ w ∈ ([1, 2, 3] : List ℚ), 0 < w := by norm_num
  have hcomplete : Selection.Complete SeededRandom Value.rational fun x =>
      (Number.float x).rational := selection_proportional _ _
  have hselects : Selection.Selects [1, 2, 3] (1 / 2) 1 :=
    ⟨by decide, .inl (by norm_num [Selection.runningTotal]), by norm_num [Selection.runningTotal]⟩
  have halternative := hcomplete.alternative_proportional Rule.lottery (by decide)
    (List.forall_mem_map.mp (hsame ▸ hpos))
  have hitem := hcomplete.item_proportional Value.lottery
    ⟨.weighted (.text "two") 2, by simp [Value.lottery], rfl⟩
    (List.forall_mem_map.mp (hweights ▸ hpos))
  refine ⟨?_, ?_, ?_⟩
  · exact ((halternative.selects_iff _ (by norm_num) (by norm_num) 1).mp (hsame ▸ hselects)).symm
  · exact ((hitem.selects_iff _ (by norm_num) (by norm_num) 1).mp (hweights ▸ hselects)).symm
  · exact hcomplete.plain_share [.text "a", .text "b", .text "c"] (by simp) (by simp [Value.choice])

end ProseGrammar
