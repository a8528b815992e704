import ProseGrammar.Proofs.Growth
import ProseGrammar.Proofs.Json.Values

/-!
# Values that JSON keeps

Written and read, most values come back as they are. An object with the keys of a weighted value
would come back as one, and integers of too many digits cannot be written; a key that is repeated
would be lost. All other values are read as what they were, as far as the doubles in them are.
-/

namespace ProseGrammar

open Decimal

/-- Whether a table has the keys of a weighted value and no others. -/
def Table.IsWeighted {α : Type} (t : Table α) : Prop :=
  ∀ key, key ∈ t.keys ↔ key = "value" ∨ key = "weight"

mutual

/-- Whether a value can be written as JSON and told apart from every other value there. -/
def Value.Storable : Value → Prop
  | .number (.int n) => n.natAbs < digitBound
  | .list items => ItemsStorable items
  | .object entries =>
    (Table.keys entries).Nodup ∧ ¬Table.IsWeighted entries ∧ EntriesStorable entries
  | .weighted value weight =>
    0 < weight ∧ (Binary64.ofFloat weight).isFinite = true ∧ value.Storable
  | _ => True

def ItemsStorable : List Value → Prop
  | [] => True
  | item :: items => item.Storable ∧ ItemsStorable items

def EntriesStorable : List (String × Value) → Prop
  | [] => True
  | (_, value) :: entries => value.Storable ∧ EntriesStorable entries

end

mutual

/-- The doubles in a value, weights among them. -/
def Value.floats : Value → List Float
  | .number (.float x) => [x]
  | .list items => itemFloats items
  | .object entries => entryFloats entries
  | .weighted value weight => weight :: value.floats
  | _ => []

def itemFloats : List Value → List Float
  | [] => []
  | item :: items => item.floats ++ itemFloats items

def entryFloats : List (String × Value) → List Float
  | [] => []
  | (_, value) :: entries => value.floats ++ entryFloats entries

end

theorem entriesStorable_iff (t : List (String × Value)) :
    EntriesStorable t ↔ ∀ entry ∈ t, entry.2.Storable := by
  induction t with
  | nil => simp [EntriesStorable]
  | cons entry t ih =>
    obtain ⟨key, value⟩ := entry
    rw [EntriesStorable, ih, List.forall_mem_cons]

/-! ### Objects -/

namespace Table

variable {α : Type} {t : Table α}

theorem length_of_isWeighted (hkeys : t.keys.Nodup) (h : t.IsWeighted) : t.length = 2 := by
  have hperm : t.keys.Perm ["value", "weight"] := by
    refine (List.perm_ext_iff_of_nodup hkeys (by simp)).mpr fun key => ?_
    rw [h key, List.mem_cons, List.mem_singleton]
  have hlength := hperm.length_eq
  rwa [keys, List.length_map] at hlength

theorem isWeighted_of_length (hvalue : "value" ∈ t.keys) (hweight : "weight" ∈ t.keys)
    (hlength : t.length = 2) : t.IsWeighted := by
  have hne : "value" ≠ "weight" := by simp
  obtain ⟨⟨k, v⟩, ⟨l, w⟩, rfl⟩ := List.length_eq_two.mp hlength
  have hkeys : ∀ key, key ∈ keys [(k, v), (l, w)] ↔ key = k ∨ key = l := by
    intro key
    rw [keys, List.map_cons, List.map_cons, List.map_nil, List.mem_cons, List.mem_singleton]
  intro key
  rw [hkeys]
  rcases (hkeys _).mp hvalue with hvalue | hvalue <;>
    rcases (hkeys _).mp hweight with hweight | hweight
  · exact absurd (hvalue.trans hweight.symm) hne
  · rw [← hvalue, ← hweight]
  · rw [← hvalue, ← hweight]
    exact or_comm
  · exact absurd (hvalue.trans hweight.symm) hne

end Table

namespace Json

theorem objectOf_of_not_isWeighted {entries : List (String × Value)} (room : Nat)
    (hkeys : (Table.keys entries).Nodup) (h : ¬Table.IsWeighted entries) :
    objectOf room entries = .ok (.object entries) := by
  unfold objectOf
  rw [Table.ofEntries_of_nodup entries hkeys]
  dsimp only
  split
  next value weight hvalue hweight =>
    rw [if_neg]
    intro hlength
    refine h (Table.isWeighted_of_length ?_ ?_ hlength)
    · exact (Table.get?_isSome_iff _ _).mp (by rw [hvalue]; rfl)
    · exact (Table.get?_isSome_iff _ _).mp (by rw [hweight]; rfl)
  next => rfl

theorem objectOf_weighted {weight : Float} (hpositive : 0 < weight)
    (hfinite : (Binary64.ofFloat weight).isFinite = true) (room : Nat) (v : Value) :
    objectOf room [("value", v), ("weight", .float weight)] = .ok (.weighted v weight) := by
  have hobject : objectOf room [("value", v), ("weight", .float weight)] =
      weightedIn room v (.float weight) := rfl
  have hweight : (decide (0 < weight) && (Binary64.ofFloat weight).isFinite) = true := by
    rw [decide_eq_true hpositive, hfinite]
    rfl
  rw [hobject, weightedIn_of_room (Nat.zero_le room)]
  show (if (decide (0 < weight) && (Binary64.ofFloat weight).isFinite) = true then _ else _) = _
  rw [if_pos hweight]
  rfl

/-! ### Writing and reading -/

theorem readsEntry_value {v : Value} {shown : String} (h : Reads v shown) :
    ReadsEntry ("value", v) ("\"value\": " ++ shown) := by
  have hkey : stringText "value" ++ ": " = "\"value\": " := rfl
  exact ⟨shown, by rw [hkey], h⟩

theorem readsEntry_weight {v : Value} {shown : String} (h : Reads v shown) :
    ReadsEntry ("weight", v) ("\"weight\": " ++ shown) := by
  have hkey : stringText "weight" ++ ": " = "\"weight\": " := rfl
  exact ⟨shown, by rw [hkey], h⟩

mutual

/-- A value that can be stored is written as a text that is read as it. -/
theorem exists_write (v : Value) (hv : v.Storable) (hfloats : ∀ x ∈ v.floats, SurvivesText x) :
    ∃ s, write v = .ok s ∧ Reads v s := by
  cases v with
  | null => exact ⟨_, rfl, reads_null⟩
  | bool b => exact ⟨_, rfl, reads_bool b⟩
  | number n =>
    cases n with
    | int n =>
      have hbound : n.natAbs < digitBound := hv
      have htext : ∃ s, integerText n = .ok s := by
        unfold integerText
        rw [if_pos hbound]
        exact ⟨_, rfl⟩
      obtain ⟨s, hs⟩ := htext
      exact ⟨s, hs, reads_integer hs⟩
    | float x => exact ⟨_, rfl, reads_float (hfloats x List.mem_cons_self)⟩
  | text s => exact ⟨_, rfl, reads_text s⟩
  | list items =>
    obtain ⟨parts, hparts, hreads⟩ := exists_writeItems items hv hfloats
    refine ⟨_, ?_, reads_list hreads⟩
    rw [write, hparts]
    rfl
  | object entries =>
    obtain ⟨hkeys, hplain, hentries⟩ := hv
    obtain ⟨parts, hparts, hreads⟩ := exists_writeEntries entries hentries hfloats
    refine ⟨_, ?_, reads_braced hreads fun room => objectOf_of_not_isWeighted room hkeys hplain⟩
    rw [write, hparts]
    rfl
  | weighted value weight =>
    obtain ⟨hpositive, hfinite, hvalue⟩ := hv
    obtain ⟨hweight, hfloats⟩ := List.forall_mem_cons.mp hfloats
    obtain ⟨shown, hshown, hreads⟩ := exists_write value hvalue hfloats
    refine ⟨_, ?_, reads_braced (.cons (readsEntry_value hreads)
      (.cons (readsEntry_weight (reads_float hweight)) .nil))
      fun room => objectOf_weighted hpositive hfinite room value⟩
    rw [write, hshown]
    rfl

theorem exists_writeItems (items : List Value) (hitems : ItemsStorable items)
    (hfloats : ∀ x ∈ itemFloats items, SurvivesText x) :
    ∃ parts, writeItems items = .ok parts ∧ List.Forall₂ Reads items parts := by
  cases items with
  | nil => exact ⟨[], rfl, .nil⟩
  | cons item items =>
    obtain ⟨hitem, hfloats⟩ := List.forall_mem_append.mp hfloats
    obtain ⟨shown, hshown, hreads⟩ := exists_write item hitems.1 hitem
    obtain ⟨parts, hparts, hothers⟩ := exists_writeItems items hitems.2 hfloats
    refine ⟨shown :: parts, ?_, .cons hreads hothers⟩
    rw [writeItems, hshown, hparts]
    rfl

theorem exists_writeEntries (entries : List (String × Value)) (hentries : EntriesStorable entries)
    (hfloats : ∀ x ∈ entryFloats entries, SurvivesText x) :
    ∃ parts, writeEntries entries = .ok parts ∧ List.Forall₂ ReadsEntry entries parts := by
  cases entries with
  | nil => exact ⟨[], rfl, .nil⟩
  | cons entry entries =>
    obtain ⟨key, value⟩ := entry
    obtain ⟨hvalue, hfloats⟩ := List.forall_mem_append.mp hfloats
    obtain ⟨shown, hshown, hreads⟩ := exists_write value hentries.1 hvalue
    obtain ⟨parts, hparts, hothers⟩ := exists_writeEntries entries hentries.2 hfloats
    refine ⟨_ :: parts, ?_, .cons ⟨shown, rfl, hreads⟩ hothers⟩
    rw [writeEntries, hshown, hparts]
    rfl

end

end Json

end ProseGrammar
