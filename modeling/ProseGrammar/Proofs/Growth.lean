import Mathlib.Data.List.Induction
import ProseGrammar.Table

/-!
# Growing tables

Setting a key keeps every key of a table at its place and adds at most one key at the end. A table
that comes from another one by setting keys therefore starts with the keys of that one, and merging
it into the table that it came from gives it back. A table that is set from the entries of a list
has distinct keys and no other entries, and is that list if its keys are distinct.
-/

namespace ProseGrammar

namespace Table

variable {α : Type}

/-! ### Growth -/

/-- Whether the keys of a table are the first keys of another one. -/
def Grows (t u : Table α) : Prop :=
  t.keys <+: u.keys

theorem grows_refl (t : Table α) : t.Grows t :=
  List.prefix_refl _

theorem grows_trans {t u v : Table α} (htu : t.Grows u) (huv : u.Grows v) : t.Grows v :=
  List.IsPrefix.trans htu huv

theorem grows_set (t : Table α) (key : String) (value : α) : t.Grows (t.set key value) := by
  unfold Grows
  rw [keys_set]
  split
  · exact List.prefix_refl _
  · exact List.prefix_append _ _

theorem merge_of_grows (t u : Table α) (h : t.Grows u) : merge t u = u := by
  induction t generalizing u with
  | nil =>
    cases u with
    | nil => rfl
    | cons entry rest => simp only [merge]
  | cons entry t ih =>
    obtain ⟨k, v⟩ := entry
    cases u with
    | nil => simp [Grows, keys] at h
    | cons entry u =>
      obtain ⟨key, value⟩ := entry
      obtain ⟨hk, ht⟩ : k = key ∧ keys t <+: keys u := by
        simpa [Grows, keys, List.cons_prefix_cons] using h
      subst hk
      simp only [merge, ite_true]
      rw [ih u ht]

/-! ### Tables of entries -/

theorem mem_of_get? {t : Table α} {key : String} {value : α} (h : t.get? key = some value) :
    (key, value) ∈ t := by
  induction t with
  | nil => cases h
  | cons entry t ih =>
    obtain ⟨k, v⟩ := entry
    by_cases hk : k = key
    · rw [get?, if_pos hk] at h
      cases h
      rw [hk]
      exact List.mem_cons_self
    · rw [get?, if_neg hk] at h
      exact List.mem_cons_of_mem _ (ih h)

theorem nodup_keys_set (t : Table α) (key : String) (value : α) (h : t.keys.Nodup) :
    (t.set key value).keys.Nodup := by
  rw [keys_set]
  split
  next => exact h
  next hnew =>
    refine List.nodup_append.mpr ⟨h, by simp, fun k hk other ho => ?_⟩
    obtain rfl := List.mem_singleton.mp ho
    rintro rfl
    exact hnew hk

theorem mem_set (t : Table α) (key : String) (value : α) (entry : String × α)
    (h : entry ∈ t.set key value) : entry = (key, value) ∨ entry ∈ t := by
  induction t with
  | nil => exact .inl (List.mem_singleton.mp h)
  | cons other t ih =>
    obtain ⟨k, v⟩ := other
    by_cases hk : k = key
    · rw [set, if_pos hk, hk] at h
      rcases List.mem_cons.mp h with rfl | h
      · exact .inl rfl
      · exact .inr (List.mem_cons_of_mem _ h)
    · rw [set, if_neg hk] at h
      rcases List.mem_cons.mp h with rfl | h
      · exact .inr List.mem_cons_self
      · exact (ih h).imp_right (List.mem_cons_of_mem _)

theorem set_ne_nil (t : Table α) (key : String) (value : α) : t.set key value ≠ [] := by
  cases t with
  | nil => exact List.cons_ne_nil _ _
  | cons entry t =>
    rw [set]
    split <;> exact List.cons_ne_nil _ _

/-- A table of entries has distinct keys, only such entries, and is not empty unless there are
none. -/
theorem ofEntries_facts (entries : List (String × α)) :
    (ofEntries entries).keys.Nodup ∧ (∀ entry ∈ ofEntries entries, entry ∈ entries) ∧
      (entries ≠ [] → ofEntries entries ≠ []) := by
  have hfold : ∀ (entries : List (String × α)) (t : Table α), t.keys.Nodup →
      let u := entries.foldl (fun t entry => t.set entry.1 entry.2) t
      u.keys.Nodup ∧ (∀ entry ∈ u, entry ∈ t ∨ entry ∈ entries) ∧
        (t ≠ [] ∨ entries ≠ [] → u ≠ []) := by
    intro entries
    induction entries with
    | nil => exact fun t ht => ⟨ht, fun _ h => .inl h, fun h => by simpa using h⟩
    | cons e entries ih =>
      intro t ht
      obtain ⟨hkeys, hmem, hne⟩ := ih (t.set e.1 e.2) (t.nodup_keys_set e.1 e.2 ht)
      refine ⟨hkeys, fun entry h => ?_, fun _ => hne (.inl (t.set_ne_nil e.1 e.2))⟩
      rcases hmem entry h with h | h
      · rcases t.mem_set e.1 e.2 entry h with rfl | h
        · exact .inr List.mem_cons_self
        · exact .inl h
      · exact .inr (List.mem_cons_of_mem e h)
  obtain ⟨hkeys, hmem, hne⟩ := hfold entries [] List.nodup_nil
  exact ⟨hkeys, fun entry h => (hmem entry h).resolve_left (fun h => nomatch h),
    fun h => hne (.inr h)⟩

theorem set_of_not_mem (t : Table α) (key : String) (value : α)
    (h : key ∉ t.keys) : t.set key value = t ++ [(key, value)] := by
  induction t with
  | nil => rfl
  | cons entry t ih =>
    have hne : ¬entry.1 = key := fun heq => h (by simp [keys, heq])
    have hrest : key ∉ keys t := fun hmem => h (List.mem_cons_of_mem _ hmem)
    rw [set, if_neg hne, ih hrest]
    rfl

theorem ofEntries_of_nodup (t : Table α) (h : t.keys.Nodup) :
    ofEntries t = t := by
  have hfold : ∀ (entries before : Table α), (keys (before ++ entries)).Nodup →
      entries.foldl (fun t entry => t.set entry.1 entry.2) before = before ++ entries := by
    intro entries
    induction entries with
    | nil => simp
    | cons entry entries ih =>
      intro before hnodup
      have hnew : entry.1 ∉ before.keys := by
        rw [keys, List.map_append, List.map_cons] at hnodup
        intro hmem
        exact (List.nodup_append.mp hnodup).2.2 _ hmem _ List.mem_cons_self rfl
      rw [List.foldl_cons, set_of_not_mem before _ _ hnew, ih _ (by simpa using hnodup)]
      simp
  exact hfold t [] h

/-! ### Tables of two lists of entries -/

theorem ofEntries_concat (entries : List (String × α)) (entry : String × α) :
    ofEntries (entries ++ [entry]) = (ofEntries entries).set entry.1 entry.2 := by
  unfold ofEntries
  rw [List.foldl_append]
  rfl

theorem get?_ofEntries_append (entries more : List (String × α)) (key : String) :
    (ofEntries (entries ++ more)).get? key =
      ((ofEntries more).get? key).or ((ofEntries entries).get? key) := by
  induction more using List.reverseRecOn with
  | nil =>
    rw [List.append_nil]
    rfl
  | append_singleton more entry ih =>
    rw [← List.append_assoc, ofEntries_concat, ofEntries_concat, get?_set, get?_set, ih]
    split <;> rfl

theorem keys_ofEntries_append (entries more : List (String × α)) :
    (ofEntries (entries ++ more)).keys = (ofEntries entries).keys ++
      (ofEntries more).keys.filter fun key => key ∉ (ofEntries entries).keys := by
  induction more using List.reverseRecOn with
  | nil =>
    rw [List.append_nil]
    exact (List.append_nil _).symm
  | append_singleton more entry ih =>
    rw [← List.append_assoc, ofEntries_concat, ofEntries_concat, keys_set, keys_set, ih]
    by_cases hfirst : entry.1 ∈ (ofEntries entries).keys
    · rw [if_pos (List.mem_append_left _ hfirst)]
      split
      next => rfl
      next =>
        rw [List.filter_append, List.filter_cons_of_neg (by simp [hfirst]), List.filter_nil,
          List.append_nil]
    · by_cases hsecond : entry.1 ∈ (ofEntries more).keys
      · rw [if_pos hsecond, if_pos]
        exact List.mem_append_right _ (List.mem_filter.mpr ⟨hsecond, decide_eq_true hfirst⟩)
      · rw [if_neg hsecond, if_neg, List.filter_append,
          List.filter_cons_of_pos (by simp [hfirst]), List.filter_nil, List.append_assoc]
        · intro hmem
          rcases List.mem_append.mp hmem with hmem | hmem
          · exact hfirst hmem
          · exact hsecond (List.mem_filter.mp hmem).1

end Table

end ProseGrammar
