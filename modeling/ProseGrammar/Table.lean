/-!
# Tables

A table is a list of entries with a text as key, in the order in which the keys were first set. A
key counts at its first entry: looking it up finds that entry, and setting it again replaces the
value there. Knowledge, variables and the rules of a grammar are tables.
-/

namespace ProseGrammar

/-- Entries with text keys, in insertion order. -/
abbrev Table (α : Type) : Type :=
  List (String × α)

namespace Table

variable {α : Type}

/-! ### Looking up -/

def get? : Table α → String → Option α
  | [], _ => none
  | (k, v) :: rest, key => if k = key then some v else get? rest key

def has (t : Table α) (key : String) : Bool :=
  (t.get? key).isSome

def keys (t : Table α) : List String :=
  t.map Prod.fst

/-! ### Setting -/

/-- Sets a key: in place if it has a value, at the end otherwise. -/
def set : Table α → String → α → Table α
  | [], key, value => [(key, value)]
  | (k, v) :: rest, key, value =>
    if k = key then (k, value) :: rest else (k, v) :: set rest key value

/-- The table of a list of entries, the last value of a key at the place of its first. -/
def ofEntries (entries : List (String × α)) : Table α :=
  entries.foldl (fun t entry => t.set entry.1 entry.2) []

/-- Sets every entry of the second table, whose keys are distinct, in its order. As long as both
tables have the same keys this takes one step an entry. -/
def merge : Table α → Table α → Table α
  | t, [] => t
  | [], entries => entries
  | (k, v) :: t, (key, value) :: entries =>
    if k = key then (k, value) :: merge t entries
    else merge (set ((k, v) :: t) key value) entries

/-! ### Laws -/

@[simp] theorem get?_nil (key : String) : get? ([] : Table α) key = none := rfl

theorem get?_set (t : Table α) (key other : String) (value : α) :
    (t.set key value).get? other = if key = other then some value else t.get? other := by
  induction t with
  | nil => simp [set, get?]
  | cons entry rest ih =>
    obtain ⟨k, v⟩ := entry
    by_cases hk : k = key
    · subst hk
      by_cases h : k = other <;> simp [set, get?, h]
    · by_cases h : k = other
      · subst h
        simp [set, get?, hk, Ne.symm hk]
      · simp [set, get?, hk, h, ih]

@[simp] theorem get?_set_self (t : Table α) (key : String) (value : α) :
    (t.set key value).get? key = some value := by
  simp [get?_set]

theorem set_set (t : Table α) (key : String) (value other : α) :
    (t.set key value).set key other = t.set key other := by
  induction t with
  | nil => simp [set]
  | cons entry rest ih =>
    obtain ⟨k, v⟩ := entry
    by_cases h : k = key <;> simp [set, h, ih]

theorem get?_isSome_iff (t : Table α) (key : String) :
    (t.get? key).isSome = true ↔ key ∈ t.keys := by
  induction t with
  | nil => simp [get?, keys]
  | cons entry rest ih =>
    obtain ⟨k, v⟩ := entry
    by_cases h : k = key
    · simp [get?, keys, h]
    · simpa [get?, keys, h, Ne.symm h] using ih

@[simp] theorem merge_nil (t : Table α) : merge t [] = t := by
  unfold merge
  rfl

/-- In a merged table an entry of the second table goes before one of the first. -/
theorem get?_merge (t entries : Table α) (h : entries.keys.Nodup) (key : String) :
    (merge t entries).get? key = (get? entries key).or (t.get? key) := by
  fun_induction merge t entries with
  | case1 t => simp [get?]
  | case2 entries _ => cases get? entries key <;> simp [get?]
  | case3 v t k value entries ih =>
    have h' : (keys entries).Nodup := (List.nodup_cons.mp h).2
    by_cases hk : k = key
    · simp [get?, hk]
    · simp [get?, hk, ih h']
  | case4 k v t other value entries hne ih =>
    have h' : (keys entries).Nodup := (List.nodup_cons.mp h).2
    have hnew : get? entries other = none := by
      have hmem : other ∉ keys entries := (List.nodup_cons.mp h).1
      cases hg : get? entries other with
      | none => rfl
      | some w =>
        exact absurd ((get?_isSome_iff entries other).mp (by simp [hg])) hmem
    rw [ih h', get?_set]
    by_cases ho : other = key
    · subst ho
      simp [get?, hnew]
    · simp [get?, ho]

/-- Setting a key leaves the keys and their order, but for a new key at the end. -/
theorem keys_set (t : Table α) (key : String) (value : α) :
    (t.set key value).keys = if key ∈ t.keys then t.keys else t.keys ++ [key] := by
  induction t with
  | nil => simp [set, keys]
  | cons entry rest ih =>
    obtain ⟨k, v⟩ := entry
    simp only [keys] at ih
    by_cases h : k = key
    · simp [set, keys, h]
    · by_cases hm : key ∈ List.map Prod.fst rest <;> simp [set, keys, h, Ne.symm h, ih, hm]

end Table

end ProseGrammar
