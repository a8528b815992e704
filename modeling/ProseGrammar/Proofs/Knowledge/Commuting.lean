import Mathlib
import ProseGrammar.Proofs.Evaluation.Unmentioned
import ProseGrammar.Proofs.Knowledge.Writes

/-!
# Changes in another order

Changes to knowledge at incomparable paths can be made in either order: they fail in both, or they
give the same up to the order of keys. Integers that are added and subtracted at one path
accumulate, whatever their order.
-/

namespace ProseGrammar

/-! ### Sameness up to the order of keys -/

/-- Whether two values are the same, or objects with the same keys in any order and such values. -/
inductive Value.SameUpToOrder : Value → Value → Prop
  | refl (v : Value) : SameUpToOrder v v
  | object {s t : Table Value} (keys : s.keys.Perm t.keys)
      (values : ∀ key v w, s.get? key = some v → t.get? key = some w → SameUpToOrder v w) :
      SameUpToOrder (.object s) (.object t)

theorem Table.keys_set_comm {α : Type} (t : Table α) {key other : String} (h : key ≠ other)
    (v w : α) : ((t.set key v).set other w).keys.Perm ((t.set other w).set key v).keys := by
  by_cases hkey : key ∈ t.keys <;> by_cases hother : other ∈ t.keys <;>
    simp [keys_set, hkey, hother, h, h.symm]
  exact (List.Perm.swap other key []).append_left t.keys

theorem Table.get?_set_comm {α : Type} (t : Table α) {key other : String} (h : key ≠ other)
    (v w : α) (k : String) :
    ((t.set key v).set other w).get? k = ((t.set other w).set key v).get? k := by
  by_cases hkey : key = k
  · subst hkey
    simp [get?_set, h.symm]
  · simp [get?_set, hkey]

theorem Value.sameUpToOrder_set_comm (t : Knowledge) {key other : String} (h : key ≠ other)
    (v w : Value) :
    SameUpToOrder (.object ((t.set key v).set other w)) (.object ((t.set other w).set key v)) := by
  refine .object (t.keys_set_comm h v w) fun k a b ha hb => ?_
  rw [t.get?_set_comm h, hb] at ha
  cases ha
  exact .refl _

theorem Value.sameUpToOrder_set (t : Knowledge) (key : String) {v w : Value}
    (h : SameUpToOrder v w) :
    SameUpToOrder (.object (t.set key v)) (.object (t.set key w)) := by
  refine .object (by rw [Table.keys_set, Table.keys_set]) fun k a b ha hb => ?_
  rw [Table.get?_set] at ha hb
  by_cases hk : key = k
  · rw [if_pos hk] at ha hb
    cases ha
    cases hb
    exact h
  · rw [if_neg hk] at ha hb
    rw [ha] at hb
    cases hb
    exact .refl a

namespace Knowledge

/-! ### Writes at incomparable paths -/

/-- Writes at incomparable paths can be made in either order. -/
theorem write_comm (op op' : AssignOp) (value value' : Value) (target target' : String)
    {p q : List String} (h : Incomparable p q) (t : Knowledge) :
    Paired (fun a b => Value.SameUpToOrder (.object a.2) (.object b.2)) Fault.Any
      (write op value target p t >>= fun e => write op' value' target' q e.2)
      (write op' value' target' q t >>= fun e => write op value target p e.2) := by
  induction p generalizing q t with
  | nil => exact absurd List.nil_prefix h.1
  | cons key p ih =>
    obtain ⟨other, q, rfl⟩ := List.exists_cons_of_ne_nil (ne_nil_of_incomparable h)
    by_cases hkey : key = other
    · subst hkey
      have hpq := incomparable_cons h
      have hp : p ≠ [] := ne_nil_of_incomparable hpq.symm
      have hq : q ≠ [] := ne_nil_of_incomparable hpq
      rcases leadsInto_or_obstacle t key with ⟨inner, hinto⟩ | ⟨v, hv, hobstacle⟩
      · -- both writes go on in one object, and only the last one that is set counts
        have hboth : ∀ op value target path op' value' target' path', path ≠ [] → path' ≠ [] →
            (write op value target (key :: path) t >>= fun e =>
              write op' value' target' (key :: path') e.2) =
            (write op value target path inner >>= fun e => write op' value' target' path' e.2) >>=
              fun e => pure (e.1, t.set key (.object e.2)) := by
          intro op value target path op' value' target' path' hpath hpath'
          rw [hinto.write op value target path hpath, bind_assoc, bind_assoc]
          refine bind_congr fun e => ?_
          have hmade := leadsInto_of_object (t.get?_set_self key (.object e.2))
          rw [pure_bind, hmade.write op' value' target' path' hpath']
          simp only [Table.set_set]
        rw [hboth _ _ _ _ _ _ _ _ hp hq, hboth _ _ _ _ _ _ _ _ hq hp]
        exact paired_bind (ih hpq inner) fun a b hab => .ok (Value.sameUpToOrder_set t key hab)
      · rw [write_cons, write_cons, hv, writeEntry_obstacle hp hobstacle,
          writeEntry_obstacle hq hobstacle]
        exact .error trivial
    · -- the writes go into different entries
      have hne : other ≠ key := Ne.symm hkey
      simp only [write_cons, bind_assoc, pure_bind, Table.get?_set, if_neg hkey, if_neg hne]
      cases writeEntry op value target key p (t.get? key) with
      | error fault =>
        cases writeEntry op' value' target' other q (t.get? other) with
        | error fault' => exact .error trivial
        | ok e' => exact .error trivial
      | ok e =>
        cases writeEntry op' value' target' other q (t.get? other) with
        | error fault' => exact .error trivial
        | ok e' => exact .ok (Value.sameUpToOrder_set_comm t hkey e.2 e'.2)

/-! ### Changes -/

/-- A write as data. -/
structure Change where
  path : List String
  op : AssignOp
  value : Value
  target : String

def Change.apply (c : Change) (t : Knowledge) : Except Fault Knowledge :=
  Prod.snd <$> write c.op c.value c.target c.path t

def applyAll (changes : List Change) (t : Knowledge) : Except Fault Knowledge :=
  changes.foldlM (fun t c => c.apply t) t

theorem applyAll_pair (a b : Change) (t : Knowledge) :
    applyAll [a, b] t = Prod.snd <$> (write a.op a.value a.target a.path t >>= fun e =>
      write b.op b.value b.target b.path e.2) := by
  simp only [applyAll, Change.apply, List.foldlM_cons, List.foldlM_nil, bind_pure]
  cases write a.op a.value a.target a.path t <;> rfl

/-! ### Adding up -/

/-- An integer that is added to what is stored, or subtracted from it. -/
inductive Adjustment
  | add (n : Int)
  | subtract (n : Int)
  deriving DecidableEq

namespace Adjustment

def signed : Adjustment → Int
  | add n => n
  | subtract n => -n

def change (path : List String) (target : String) : Adjustment → Change
  | add n => ⟨path, .add, .int n, target⟩
  | subtract n => ⟨path, .subtract, .int n, target⟩

end Adjustment

/-- Whether an integer is stored; nothing and null count as zero. -/
def CountsAs (stored : Option Value) (n : Int) : Prop :=
  stored.getD .null = .null ∧ n = 0 ∨ stored = some (.int n)

theorem update_adjustment {stored : Option Value} {n : Int} (h : CountsAs stored n)
    (path : List String) (target : String) (a : Adjustment) :
    Value.update (a.change path target).op stored (a.change path target).value target =
      .ok (.int (n + a.signed)) := by
  rcases h with ⟨hnull, rfl⟩ | rfl
  · cases a with
    | add m =>
      simp only [Adjustment.change, Adjustment.signed, Value.update, hnull]
      rfl
    | subtract m =>
      simp only [Adjustment.change, Adjustment.signed, Value.update, hnull]
      rfl
  · cases a with
    | add m => rfl
    | subtract m => rfl

/-- An adjustment changes the integer by its signed amount, and leaves the path free. -/
theorem apply_adjustment {p : List String} (hp : p ≠ []) (target : String) {t : Knowledge} {n : Int}
    (hclear : ¬∃ q, t.ObstructedAt p q) (h : CountsAs ((Value.object t).lookup? p) n)
    (a : Adjustment) :
    ∃ t', (a.change p target).apply t = .ok t' ∧ (¬∃ q, t'.ObstructedAt p q) ∧
      (Value.object t').lookup? p = some (.int (n + a.signed)) := by
  have hpath : (a.change p target).path = p ∧ (a.change p target).target = target := by
    cases a <;> exact ⟨rfl, rfl⟩
  have hw := write_of_clear (a.change p target).op (a.change p target).value target hp hclear
  rw [update_adjustment h p target a] at hw
  unfold Change.apply
  rw [hpath.1, hpath.2]
  cases hresult : write (a.change p target).op (a.change p target).value target p t with
  | error fault =>
    rw [hresult] at hw
    cases hw
  | ok result =>
    obtain ⟨stored, t'⟩ := result
    rw [hresult] at hw
    cases hw
    refine ⟨t', rfl, ?_, write_lookup?_self hresult⟩
    rintro ⟨q, -, hq, hproper, v, hv, hobstacle⟩
    obtain ⟨entries, hentries⟩ := write_lookup?_prefix hresult hq hproper
    rw [hentries] at hv
    cases hv
    cases hobstacle

theorem applyAll_adjustments {p : List String} (hp : p ≠ []) (target : String)
    {steps : List Adjustment} (hsteps : steps ≠ []) {t : Knowledge} {n : Int}
    (hclear : ¬∃ q, t.ObstructedAt p q) (h : CountsAs ((Value.object t).lookup? p) n) :
    ∃ t', applyAll (steps.map (·.change p target)) t = .ok t' ∧
      (Value.object t').lookup? p = some (.int (n + (steps.map (·.signed)).sum)) := by
  induction steps generalizing t n with
  | nil => exact absurd rfl hsteps
  | cons a rest ih =>
    obtain ⟨t₁, hfirst, hclear₁, hn⟩ := apply_adjustment hp target hclear h a
    have hall : applyAll ((a :: rest).map (·.change p target)) t =
        applyAll (rest.map (·.change p target)) t₁ := by
      simp only [applyAll, List.map_cons, List.foldlM_cons, hfirst]
      rfl
    rw [hall, List.map_cons, List.sum_cons, ← Int.add_assoc]
    by_cases hrest : rest = []
    · subst hrest
      exact ⟨t₁, rfl, by simpa using hn⟩
    · exact ih hrest hclear₁ (.inr hn)

/-- Changes at incomparable paths can be made in either order; adjustments of one integer can be
made in any order. -/
theorem applyAll_reordered :
    (∀ (a b : Change) (t : Knowledge), Incomparable a.path b.path →
      Paired (fun s s' => Value.SameUpToOrder (.object s) (.object s')) Fault.Any
        (applyAll [a, b] t) (applyAll [b, a] t)) ∧
    ∀ (p : List String) (target : String) (t : Knowledge) (n : Int)
      (steps steps' : List Adjustment), p ≠ [] → (¬∃ q, t.ObstructedAt p q) →
      CountsAs ((Value.object t).lookup? p) n → steps ≠ [] → steps'.Perm steps →
      ∃ t', applyAll (steps'.map (·.change p target)) t = .ok t' ∧
        (Value.object t').lookup? p = some (.int (n + (steps.map (·.signed)).sum)) := by
  refine ⟨fun a b t h => ?_, fun p target t n steps steps' hp hclear hn hne hperm => ?_⟩
  · rw [applyAll_pair, applyAll_pair]
    exact paired_bind (write_comm _ _ _ _ _ _ h t) fun _ _ hsame => .ok hsame
  · rw [← (hperm.map (·.signed)).sum_eq]
    have hne' : steps' ≠ [] := by
      rintro rfl
      exact hne hperm.symm.eq_nil
    exact applyAll_adjustments hp target hne' hclear hn

/-- Two items of a bag that is null, and three changes of its gold, the last one first. -/
theorem applyAll_reordered_bag :
    let t : Knowledge := [("bag", .null)]
    let sword : Change := ⟨["bag", "sword"], .set, .bool true, "bag.sword"⟩
    let torch : Change := ⟨["bag", "torch"], .add, .text "lit", "bag.torch"⟩
    Paired (fun s s' => Value.SameUpToOrder (.object s) (.object s')) Fault.Any
      (applyAll [sword, torch] t) (applyAll [torch, sword] t) ∧
    ∃ t', applyAll ([.subtract 4, .add 5, .add 2].map
        (Adjustment.change ["bag", "gold"] "bag.gold")) t = .ok t' ∧
      (Value.object t').lookup? ["bag", "gold"] = some (.int 3) := by
  intro t sword torch
  have hclear : ¬∃ q, t.ObstructedAt ["bag", "gold"] q := by
    intro h
    obtain ⟨key, -, -, -, hw⟩ := write_of_obstructedAt .set .null "bag.gold" h
    cases hw
  have hpaths : Incomparable sword.path torch.path := by simp [Incomparable, sword, torch]
  exact ⟨applyAll_reordered.1 sword torch t hpaths,
    applyAll_reordered.2 ["bag", "gold"] "bag.gold" t 0 [.add 5, .add 2, .subtract 4]
      [.subtract 4, .add 5, .add 2] (by decide) hclear (.inl ⟨rfl, rfl⟩) (by decide) (by decide)⟩

end Knowledge

end ProseGrammar
