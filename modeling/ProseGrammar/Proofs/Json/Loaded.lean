import ProseGrammar.Proofs.Json.Consumed
import ProseGrammar.Proofs.Json.Storable

/-!
# Values read from JSON

Whatever JSON text is read, its value could be written again and told apart from others: an integer
has few enough digits, a key of an object occurs once, and what has the keys of a weighted value has
become one.
-/

namespace ProseGrammar

open Decimal

/-! ### Numbers -/

theorem ofDigits_lt (ds : List Char) (h : ∀ c ∈ ds, isDigit c = true) :
    ofDigits ds < 10 ^ ds.length := by
  have hfold : ∀ (ds : List Char) (n : Nat), (∀ c ∈ ds, isDigit c = true) →
      ds.foldl (fun n c => 10 * n + (c.toNat - '0'.toNat)) n < (n + 1) * 10 ^ ds.length := by
    intro ds
    induction ds with
    | nil =>
      intro n _
      simp
    | cons c ds ih =>
      intro n hds
      obtain ⟨hc, hds⟩ := List.forall_mem_cons.mp hds
      have hdigit : c.toNat - '0'.toNat ≤ 9 := by
        simp only [isDigit, Bool.and_eq_true, decide_eq_true_eq] at hc
        have hmost : c.toNat ≤ 57 := hc.2
        have hzero : '0'.toNat = 48 := rfl
        omega
      calc (c :: ds).foldl (fun n c => 10 * n + (c.toNat - '0'.toNat)) n
          < (10 * n + (c.toNat - '0'.toNat) + 1) * 10 ^ ds.length := ih _ hds
        _ ≤ (10 * (n + 1)) * 10 ^ ds.length := Nat.mul_le_mul_right _ (by omega)
        _ = (n + 1) * 10 ^ (c :: ds).length := by
          rw [List.length_cons, Nat.pow_succ, Nat.mul_comm 10, Nat.mul_assoc, Nat.mul_comm 10]
  have hlt := hfold ds 0 h
  rwa [Nat.zero_add, Nat.one_mul] at hlt

theorem natAbs_signed (negative : Bool) (m : Nat) : (Binary64.signed negative m).natAbs = m := by
  unfold Binary64.signed
  split
  · rw [Int.natAbs_neg, Int.natAbs_natCast]
  · exact Int.natAbs_natCast m

theorem storable_ofNumeral (n : Numeral) (h : ∀ c ∈ n.whole, isDigit c = true) :
    GivesIn (fun number => (Value.number number).Storable) (Number.ofNumeral n) := by
  unfold Number.ofNumeral
  split
  · unfold Numeral.integer
    split
    next hlength =>
      refine givesIn_ok ?_
      show (Binary64.signed n.negative (ofDigits n.whole)).natAbs < digitBound
      rw [natAbs_signed]
      exact Nat.lt_of_lt_of_le (ofDigits_lt n.whole h) (Nat.pow_le_pow_right (by decide) hlength)
    next => exact givesIn_error _
  · exact givesIn_ok trivial

namespace Json

theorem isDigit_of_wholeDigits? {cs whole rest : List Char}
    (h : wholeDigits? cs = some (whole, rest)) : ∀ c ∈ whole, isDigit c = true := by
  unfold wholeDigits? at h
  split at h
  · cases h
    exact areDigits_zero.2
  · unfold Numeral.digits at h
    dsimp only at h
    split at h
    · cases h
    · cases h
      exact List.all_eq_true.mp List.all_takeWhile

theorem storable_number (text cs : List Char) :
    GivesIn (fun read => read.1.Storable) (number text cs) := by
  unfold number
  dsimp only
  split
  next => exact givesIn_error _
  next whole rest hwhole =>
    exact givesIn_bind (storable_ofNumeral _ (isDigit_of_wholeDigits? hwhole)) fun n hn =>
      givesIn_ok hn

/-! ### Objects -/

theorem storable_withWeight {v : Value} (hv : v.Storable) (weight : Value) :
    GivesIn Value.Storable (v.withWeight weight) := by
  intro w hw
  obtain ⟨x, rfl, hpositive, hfinite⟩ := givesIn_withWeight v weight w hw
  exact ⟨hpositive, hfinite, hv⟩

theorem storable_objectOf {entries : List (String × Value)} (room : Nat)
    (h : EntriesStorable entries) : GivesIn Value.Storable (objectOf room entries) := by
  obtain ⟨hkeys, hmem, -⟩ := Table.ofEntries_facts entries
  rw [entriesStorable_iff] at h
  have hentries : ∀ entry ∈ Table.ofEntries entries, entry.2.Storable :=
    fun entry hentry => h entry (hmem entry hentry)
  have hobject : ¬Table.IsWeighted (Table.ofEntries entries) →
      (Value.object (Table.ofEntries entries)).Storable :=
    fun hplain => ⟨hkeys, hplain, (entriesStorable_iff _).mpr hentries⟩
  unfold objectOf
  dsimp only
  split
  next value weight hvalue hweight =>
    split
    next hlength =>
      refine givesIn_enter _ _ _ fun _ => ?_
      exact storable_withWeight (hentries _ (Table.mem_of_get? hvalue)) weight
    next hlength =>
      exact givesIn_ok (hobject fun h => hlength (Table.length_of_isWeighted hkeys h))
  next hnone =>
    refine givesIn_ok (hobject fun h => ?_)
    obtain ⟨value, hvalue⟩ := Option.isSome_iff_exists.mp
      ((Table.get?_isSome_iff _ _).mpr ((h "value").mpr (.inl rfl)))
    obtain ⟨weight, hweight⟩ := Option.isSome_iff_exists.mp
      ((Table.get?_isSome_iff _ _).mpr ((h "weight").mpr (.inr rfl)))
    exact hnone value weight hvalue hweight

/-! ### Values -/

/-- Values, items and entries that are read can be written, by induction on the fuel. -/
theorem storable_values (text : List Char) (fuel : Nat) :
    (∀ room cs, GivesIn (fun read => read.1.Storable) (value text room fuel cs)) ∧
      (∀ room cs, GivesIn (fun read => ItemsStorable read.1) (elements text room fuel cs)) ∧
      ∀ room cs, GivesIn (fun read => EntriesStorable read.1) (members text room fuel cs) := by
  -- values, items and entries are read by one another with less fuel, so they are taken together
  induction fuel with
  | zero =>
    exact ⟨fun _ _ => givesIn_error _, fun _ _ => givesIn_error _, fun _ _ => givesIn_error _⟩
  | succ fuel ih =>
    obtain ⟨hvalue, helements, hmembers⟩ := ih
    refine ⟨fun room cs => ?_, fun room cs => ?_, fun room cs => ?_⟩
    · unfold value
      split
      · exact givesIn_bind (givesIn_true _) fun _ _ => givesIn_ok trivial
      · refine givesIn_enter _ _ _ fun room => ?_
        split
        · exact givesIn_ok ⟨List.nodup_nil, fun h => List.not_mem_nil ((h "value").mpr (.inl rfl)),
            trivial⟩
        · exact givesIn_bind (hmembers _ _) fun read hread =>
            givesIn_bind (storable_objectOf room hread) fun _ hv => givesIn_ok hv
      · refine givesIn_enter _ _ _ fun room => ?_
        split
        · exact givesIn_ok trivial
        · exact givesIn_bind (helements _ _) fun _ hitems => givesIn_ok hitems
      all_goals first | exact givesIn_ok trivial | exact storable_number _ _
    · unfold elements
      refine givesIn_bind (hvalue _ _) fun read hitem => ?_
      obtain ⟨item, rest⟩ := read
      dsimp only
      split
      · exact givesIn_ok ⟨hitem, trivial⟩
      · exact givesIn_bind (helements _ _) fun _ hitems => givesIn_ok ⟨hitem, hitems⟩
      · exact givesIn_error _
    · unfold members
      split
      · refine givesIn_bind (givesIn_true _) fun read _ => ?_
        obtain ⟨key, rest⟩ := read
        dsimp only
        split
        · refine givesIn_bind (hvalue _ _) fun read hv => ?_
          obtain ⟨v, rest⟩ := read
          dsimp only
          split
          · exact givesIn_ok ⟨hv, trivial⟩
          · exact givesIn_bind (hmembers _ _) fun _ hentries => givesIn_ok ⟨hv, hentries⟩
          · exact givesIn_error _
        · exact givesIn_error _
      · exact givesIn_error _

theorem storable_readOn (room : Nat) (s : String) : GivesIn Value.Storable (readOn room s) := by
  unfold readOn
  dsimp only
  split
  · exact givesIn_error _
  · refine givesIn_bind ((storable_values _ _).1 _ _) fun read hv => ?_
    obtain ⟨v, rest⟩ := read
    dsimp only
    split
    · exact givesIn_ok hv
    · exact givesIn_error _

theorem storable_readKnowledgeOn (room : Nat) (s : String) :
    GivesIn (fun k => (Value.object k).Storable) (readKnowledgeOn room s) := by
  refine givesIn_bind (storable_readOn room s) fun v hv => ?_
  split
  · exact givesIn_ok hv
  · exact givesIn_error _

end Json

end ProseGrammar
