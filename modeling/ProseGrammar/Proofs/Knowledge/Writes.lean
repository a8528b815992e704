import ProseGrammar.Proofs.Evaluation.KnowledgeFrame
import ProseGrammar.Proofs.Foreseen

/-!
# Writes along a path

Nested objects are a store: what is written along a path is found there, every incomparable path
leads to what it led to before, and a later assignment covers an earlier one. A write fails in two
ways only. Either a value in the way is neither null nor an object, and the fault names the key of
the first such value; or the update of the old value fails, and with the same fault.
-/

namespace ProseGrammar

/-- Whether no path leads through a value: it is neither null nor an object. -/
def Value.isObstacle : Value → Bool
  | null => false
  | object _ => false
  | _ => true

namespace Knowledge

/-! ### Obstructed paths -/

/-- Whether an obstacle is in the way of a path, at the end of the prefix `q`. -/
def ObstructedAt (t : Knowledge) (p q : List String) : Prop :=
  q ≠ [] ∧ q <+: p ∧ q ≠ p ∧ ∃ v, (Value.object t).lookup? q = some v ∧ v.isObstacle = true

/-- The fault of a write in whose way an obstacle is. -/
def obstruction (target key : String) : Fault :=
  .evaluation (.assignThroughProperty key) (some target)

theorem obstructedAt_singleton {t : Knowledge} {key : String} {path : List String} {v : Value}
    (hpath : path ≠ []) (hv : t.get? key = some v) (hobstacle : v.isObstacle = true) :
    t.ObstructedAt (key :: path) [key] := by
  refine ⟨List.cons_ne_nil _ _, by simp [List.cons_prefix_cons], by simpa using hpath.symm, v, ?_,
    hobstacle⟩
  rw [lookup?_object, hv]
  rfl

theorem obstructedAt_cons {t inner : Knowledge} {key : String} {path q : List String}
    (hinner : t.get? key = some (.object inner)) (h : inner.ObstructedAt path q) :
    t.ObstructedAt (key :: path) (key :: q) := by
  obtain ⟨-, hprefix, hproper, v, hv, hobstacle⟩ := h
  refine ⟨List.cons_ne_nil _ _, List.cons_prefix_cons.mpr ⟨rfl, hprefix⟩, by simpa using hproper, v,
    ?_, hobstacle⟩
  rw [lookup?_object, hinner]
  exact hv

/-- An obstacle is either under the first key of a path, or in an object that is there. -/
theorem obstructedAt_cases {t : Knowledge} {key : String} {path q : List String}
    (h : t.ObstructedAt (key :: path) q) :
    path ≠ [] ∧
      ((∃ v, q = [key] ∧ t.get? key = some v ∧ v.isObstacle = true) ∨
        ∃ inner r, q = key :: r ∧ t.get? key = some (.object inner) ∧ ObstructedAt inner path r) := by
  obtain ⟨hne, hprefix, hproper, v, hv, hobstacle⟩ := h
  obtain ⟨other, r, rfl⟩ := List.exists_cons_of_ne_nil hne
  obtain ⟨rfl, hr⟩ := List.cons_prefix_cons.mp hprefix
  have hrp : r ≠ path := fun heq => hproper (by rw [heq])
  have hpath : path ≠ [] := by
    rintro rfl
    exact hrp (List.prefix_nil.mp hr)
  rw [lookup?_object] at hv
  obtain ⟨w, hw, hv⟩ := Option.bind_eq_some_iff.mp hv
  refine ⟨hpath, ?_⟩
  cases r with
  | nil =>
    obtain rfl := Option.some.inj hv
    exact .inl ⟨w, rfl, hw, hobstacle⟩
  | cons next r =>
    cases w with
    | object inner =>
      exact .inr ⟨inner, next :: r, rfl, hw, List.cons_ne_nil _ _, hr, hrp, v, hv, hobstacle⟩
    | _ => cases hv

theorem not_obstructedAt_nil (p q : List String) : ¬ObstructedAt [] p q := by
  rintro ⟨hne, -, -, v, hv, -⟩
  obtain ⟨key, r, rfl⟩ := List.exists_cons_of_ne_nil hne
  cases hv

/-! ### Entries on the way -/

/-- Whether what is behind a key, where it is read and where it is written to, is in one object:
the one that is there, or an empty one in place of nothing and of null. -/
structure LeadsInto (t : Knowledge) (key : String) (inner : Knowledge) : Prop where
  object : ∀ entries, t.get? key = some (.object entries) → entries = inner
  lookup? : ∀ path, path ≠ [] →
    (Value.object t).lookup? (key :: path) = (Value.object inner).lookup? path
  obstructed : ∀ path q, inner.ObstructedAt path q → t.ObstructedAt (key :: path) (key :: q)
  write : ∀ op value target path, path ≠ [] →
    write op value target (key :: path) t =
      write op value target path inner >>= fun e => pure (e.1, t.set key (.object e.2))

theorem leadsInto_of_null {t : Knowledge} {key : String} (h : (t.get? key).getD .null = .null) :
    t.LeadsInto key [] where
  object entries hentries := by
    rw [hentries] at h
    cases h
  lookup? path hpath := (lookup?_object t key path).trans (lookup?_made _ h path hpath)
  obstructed path q hq := absurd hq (not_obstructedAt_nil path q)
  write op value target path hpath := by
    rw [write_cons, writeEntry_null hpath h, bind_assoc]
    rfl

theorem leadsInto_of_object {t inner : Knowledge} {key : String}
    (h : t.get? key = some (.object inner)) : t.LeadsInto key inner where
  object entries hentries := by
    rw [h] at hentries
    cases hentries
    rfl
  lookup? path _ := by
    rw [lookup?_object, h]
    rfl
  obstructed _ _ hq := obstructedAt_cons h hq
  write op value target path hpath := by
    rw [write_cons, h, writeEntry_object hpath, bind_assoc]
    rfl

theorem leadsInto_or_obstacle (t : Knowledge) (key : String) :
    (∃ inner, t.LeadsInto key inner) ∨ ∃ v, t.get? key = some v ∧ v.isObstacle = true := by
  cases hv : t.get? key with
  | none => exact .inl ⟨[], leadsInto_of_null (by rw [hv]; rfl)⟩
  | some v =>
    cases v with
    | null => exact .inl ⟨[], leadsInto_of_null (by rw [hv]; rfl)⟩
    | object inner => exact .inl ⟨inner, leadsInto_of_object hv⟩
    | _ => exact .inr ⟨_, rfl, rfl⟩

/-! ### Failing writes -/

theorem writeEntry_obstacle {path : List String} (hpath : path ≠ []) {v : Value}
    (hv : v.isObstacle = true) (op : AssignOp) (value : Value) (target key : String) :
    writeEntry op value target key path (some v) = .error (obstruction target key) := by
  unfold writeEntry
  split
  · exact absurd rfl hpath
  · cases v with
    | null => cases hv
    | object entries => cases hv
    | _ => rfl

/-- Where an obstacle is in the way, the fault of a write names the key of the first one. -/
theorem write_of_obstructedAt (op : AssignOp) (value : Value) (target : String)
    {p : List String} {t : Knowledge} (h : ∃ q, t.ObstructedAt p q) :
    ∃ key before, t.ObstructedAt p (before ++ [key]) ∧
      (∀ q, t.ObstructedAt p q → before ++ [key] <+: q) ∧
      write op value target p t = .error (obstruction target key) := by
  induction p generalizing t with
  | nil =>
    obtain ⟨q, hne, hq, -⟩ := h
    exact absurd (List.prefix_nil.mp hq) hne
  | cons key path ih =>
    obtain ⟨q, hq⟩ := h
    -- the first obstacle is under the key, or it is in the object there, where the write goes on
    obtain ⟨hpath, ⟨v, -, hv, hobstacle⟩ | ⟨inner, r, -, hinner, hr⟩⟩ := obstructedAt_cases hq
    · refine ⟨key, [], obstructedAt_singleton hpath hv hobstacle, fun q hq => ?_, ?_⟩
      · obtain ⟨-, ⟨_, rfl, -⟩ | ⟨_, _, rfl, -⟩⟩ := obstructedAt_cases hq <;>
          simp [List.cons_prefix_cons]
      · rw [write_cons, hv, writeEntry_obstacle hpath hobstacle]
        rfl
    · obtain ⟨last, before, hlast, hfirst, hw⟩ := ih ⟨r, hr⟩
      refine ⟨last, key :: before, obstructedAt_cons hinner hlast, fun q hq => ?_, ?_⟩
      · obtain ⟨-, ⟨v, -, hv, hobstacle⟩ | ⟨other, r, rfl, hother, hr⟩⟩ := obstructedAt_cases hq
        · rw [hinner] at hv
          cases hv
          cases hobstacle
        · rw [hinner] at hother
          cases hother
          exact List.cons_prefix_cons.mpr ⟨rfl, hfirst r hr⟩
      · rw [write_cons, hinner, writeEntry_object hpath, hw]
        rfl

/-- Where no obstacle is in the way, a write gives what the update of the old value gives. -/
theorem write_of_clear (op : AssignOp) (value : Value) (target : String) {p : List String}
    {t : Knowledge} (hp : p ≠ []) (hclear : ¬∃ q, t.ObstructedAt p q) :
    Prod.fst <$> write op value target p t =
      Value.update op ((Value.object t).lookup? p) value target := by
  induction p generalizing t with
  | nil => exact absurd rfl hp
  | cons key path ih =>
    by_cases hpath : path = []
    · subst hpath
      have hself : (Value.object t).lookup? [key] = t.get? key := by
        rw [lookup?_object]
        cases t.get? key <;> rfl
      rw [write_cons, writeEntry_nil, hself]
      cases Value.update op (t.get? key) value target <;> rfl
    · rcases leadsInto_or_obstacle t key with ⟨inner, hinto⟩ | ⟨v, hv, hobstacle⟩
      · have hinner : ¬∃ q, inner.ObstructedAt path q := fun ⟨q, hq⟩ =>
          hclear ⟨key :: q, hinto.obstructed path q hq⟩
        rw [hinto.lookup? path hpath, hinto.write op value target path hpath, ← ih hpath hinner]
        cases write op value target path inner <;> rfl
      · exact absurd ⟨[key], obstructedAt_singleton hpath hv hobstacle⟩ hclear

theorem update_ne_obstruction (op : AssignOp) (stored : Option Value) (value : Value)
    (target key : String) :
    Value.update op stored value target ≠ .error (obstruction target key) := by
  have hfails : FailsIn (· ≠ obstruction target key) (Value.update op stored value target) := by
    unfold obstruction
    exact Value.failsIn_update (fun _ => nofun) nofun op stored value nofun (fun _ _ => nofun)
  exact fun h => hfails _ h rfl

/-! ### What a write leaves -/

theorem write_cons_cases {op : AssignOp} {value : Value} {target key : String} {path : List String}
    {t t' : Knowledge} {stored : Value}
    (h : write op value target (key :: path) t = .ok (stored, t')) :
    (path = [] ∧ t' = t.set key stored) ∨
      ∃ inner made, path ≠ [] ∧ t.LeadsInto key inner ∧
        write op value target path inner = .ok (stored, made) ∧ t' = t.set key (.object made) := by
  obtain ⟨v, he, rfl⟩ := write_cons_ok h
  rcases writeEntry_ok he with ⟨rfl, rfl, -⟩ | ⟨inner, made, hinner, rfl, hw⟩
  · exact .inl ⟨rfl, rfl⟩
  · have hpath : path ≠ [] := by
      rintro rfl
      cases hw
    refine .inr ⟨inner, made, hpath, ?_, hw, rfl⟩
    rcases hinner with ⟨hnull, rfl⟩ | hinner
    · exact leadsInto_of_null hnull
    · exact leadsInto_of_object hinner

theorem write_lookup?_self {op : AssignOp} {value : Value} {target : String} {p : List String}
    {t t' : Knowledge} {stored : Value} (h : write op value target p t = .ok (stored, t')) :
    (Value.object t').lookup? p = some stored := by
  induction p generalizing t t' with
  | nil => cases h
  | cons key path ih =>
    rw [lookup?_object]
    rcases write_cons_cases h with ⟨rfl, rfl⟩ | ⟨inner, made, -, -, hw, rfl⟩
    · rw [Table.get?_set_self]
      rfl
    · rw [Table.get?_set_self]
      exact ih hw

theorem write_lookup?_prefix {op : AssignOp} {value : Value} {target : String}
    {p q : List String} {t t' : Knowledge} {stored : Value}
    (h : write op value target p t = .ok (stored, t')) (hq : q <+: p) (hproper : q ≠ p) :
    ∃ entries, (Value.object t').lookup? q = some (.object entries) := by
  induction p generalizing q t t' with
  | nil => cases h
  | cons key path ih =>
    cases q with
    | nil => exact ⟨t', rfl⟩
    | cons other q =>
      obtain ⟨rfl, hrest⟩ := List.cons_prefix_cons.mp hq
      have hne : q ≠ path := fun heq => hproper (by rw [heq])
      rw [lookup?_object]
      rcases write_cons_cases h with ⟨rfl, -⟩ | ⟨inner, made, -, -, hw, rfl⟩
      · exact absurd (List.prefix_nil.mp hrest) hne
      · rw [Table.get?_set_self]
        exact ih hw hrest hne

/-- In every object but those that are replaced, the keys stay first and in their order. -/
theorem write_keepsOrder {op : AssignOp} {value : Value} {target : String} {p q : List String}
    {t t' entries : Knowledge} {stored : Value}
    (h : write op value target p t = .ok (stored, t')) (hq : ¬p <+: q)
    (hentries : (Value.object t).lookup? q = some (.object entries)) :
    ∃ entries', (Value.object t').lookup? q = some (.object entries') ∧
      Table.Grows entries entries' := by
  induction p generalizing q t t' with
  | nil => cases h
  | cons key path ih =>
    cases q with
    | nil =>
      cases hentries
      exact ⟨t', rfl, write_grows _ _ _ _ _ _ _ h⟩
    | cons other q =>
      by_cases hkey : key = other
      · subst hkey
        have hrest : ¬path <+: q := fun hprefix => hq (List.cons_prefix_cons.mpr ⟨rfl, hprefix⟩)
        rcases write_cons_cases h with ⟨rfl, -⟩ | ⟨inner, made, -, hinto, hw, rfl⟩
        · exact absurd List.nil_prefix hrest
        rw [lookup?_object, Table.get?_set_self]
        refine ih hw hrest ?_
        -- an object behind the key is the one that is written to, or in it
        cases q with
        | nil =>
          rw [lookup?_object, Option.bind_eq_some_iff] at hentries
          obtain ⟨v, hv, hsame⟩ := hentries
          cases hsame
          rw [hinto.object entries hv]
          rfl
        | cons next q =>
          rw [← hinto.lookup? (next :: q) (List.cons_ne_nil _ _)]
          exact hentries
      · obtain ⟨v, -, rfl⟩ := write_cons_ok h
        rw [lookup?_object, Table.get?_set, if_neg hkey, ← lookup?_object]
        exact ⟨entries, hentries, Table.grows_refl entries⟩

/-- Assigning to a path that was written to is assigning to it in the first place. -/
theorem write_set_after {op : AssignOp} {value : Value} {target : String} {p : List String}
    {t t' : Knowledge} {stored : Value} (h : write op value target p t = .ok (stored, t'))
    (later : Value) (target' : String) :
    write .set later target' p t' = write .set later target' p t := by
  induction p generalizing t t' with
  | nil => cases h
  | cons key path ih =>
    rcases write_cons_cases h with ⟨rfl, rfl⟩ | ⟨inner, made, hpath, hinto, hw, rfl⟩
    · rw [write_cons, write_cons, writeEntry_nil, writeEntry_nil]
      simp only [Table.set_set]
      rfl
    · have hmade := leadsInto_of_object (t.get?_set_self key (.object made))
      rw [hmade.write _ _ _ _ hpath, hinto.write _ _ _ _ hpath, ih hw]
      simp only [Table.set_set]

/-- What a write of a value at the end of a path makes of a table. -/
structure IsStored (p : List String) (stored : Value) (t t' : Knowledge) : Prop where
  found : (Value.object t').lookup? p = some stored
  onPath : ∀ q, q <+: p → q ≠ p → ∃ entries, (Value.object t').lookup? q = some (.object entries)
  offPath : ∀ q, Incomparable p q → (Value.object t').lookup? q = (Value.object t).lookup? q
  order : ∀ q entries, ¬p <+: q → (Value.object t).lookup? q = some (.object entries) →
    ∃ entries', (Value.object t').lookup? q = some (.object entries') ∧
      Table.keys entries <+: Table.keys entries'

theorem isStored_of_write {op : AssignOp} {value : Value} {target : String} {p : List String}
    {t t' : Knowledge} {stored : Value} (h : write op value target p t = .ok (stored, t')) :
    IsStored p stored t t' where
  found := write_lookup?_self h
  onPath _ hq hproper := write_lookup?_prefix h hq hproper
  offPath q hq := write_lookup? _ _ _ _ _ _ _ q h hq
  order _ _ hq hentries := write_keepsOrder h hq hentries

/-- Nested objects are a store with paths for addresses. A write is obstructed exactly if an obstacle
is in the way, and its fault names the first one; otherwise it fails as the update of the old value
does, or stores what the update gives. An assignment that is made again changes nothing, and one that
is made after any write makes it unobservable. -/
theorem write_stores_at_path (op : AssignOp) (value : Value) (target : String) {p : List String}
    (hp : p ≠ []) (t : Knowledge) :
    (∀ key, (obstruction target key).message =
      s!"Evaluation error at {target}: " ++
        s!"Cannot assign through non-object property '{key}'") ∧
    ((∃ key, write op value target p t = .error (obstruction target key)) ↔
      ∃ q, t.ObstructedAt p q) ∧
    (∀ key, write op value target p t = .error (obstruction target key) →
      ∃ before, t.ObstructedAt p (before ++ [key]) ∧
        ∀ q, t.ObstructedAt p q → before ++ [key] <+: q) ∧
    ((¬∃ q, t.ObstructedAt p q) →
      (∀ fault, Value.update op ((Value.object t).lookup? p) value target = .error fault →
        write op value target p t = .error fault) ∧
      ∀ stored, Value.update op ((Value.object t).lookup? p) value target = .ok stored →
        ∃ t', write op value target p t = .ok (stored, t') ∧ IsStored p stored t t') ∧
    ∀ stored t', write op value target p t = .ok (stored, t') →
      (op = .set → write op value target p t' = .ok (stored, t')) ∧
        ∀ later target', write .set later target' p t' = write .set later target' p t := by
  -- the fault of an obstructed write comes of an obstacle, since no update has this fault
  have hobstructed : ∀ key, write op value target p t = .error (obstruction target key) →
      ∃ q, t.ObstructedAt p q := by
    intro key h
    by_contra hclear
    have hupdate := write_of_clear op value target hp hclear
    rw [h] at hupdate
    exact update_ne_obstruction op _ value target key hupdate.symm
  refine ⟨fun key => rfl, ⟨fun ⟨key, h⟩ => hobstructed key h, fun h => ?_⟩, fun key h => ?_,
    fun hclear => ⟨fun fault hupdate => ?_, fun stored hupdate => ?_⟩, fun stored t' h => ⟨?_, ?_⟩⟩
  · obtain ⟨key, -, -, -, hw⟩ := write_of_obstructedAt op value target h
    exact ⟨key, hw⟩
  · obtain ⟨first, before, hat, hfirst, hw⟩ :=
      write_of_obstructedAt op value target (hobstructed key h)
    rw [h] at hw
    cases hw
    exact ⟨before, hat, hfirst⟩
  · have hw := write_of_clear op value target hp hclear
    rw [hupdate] at hw
    cases hresult : write op value target p t with
    | error fault =>
      rw [hresult] at hw
      cases hw
      rfl
    | ok result =>
      rw [hresult] at hw
      cases hw
  · have hw := write_of_clear op value target hp hclear
    rw [hupdate] at hw
    cases hresult : write op value target p t with
    | error fault =>
      rw [hresult] at hw
      cases hw
    | ok result =>
      rw [hresult] at hw
      cases hw
      exact ⟨result.2, rfl, isStored_of_write hresult⟩
  · rintro rfl
    rw [write_set_after h]
    exact h
  · exact write_set_after h

/-- The bag is null when gold is put into it, and the name is a text. -/
theorem write_stores_at_path_bag :
    let t : Knowledge :=
      [("name", .text "Ann"), ("player", .object [("bag", .null), ("hp", .int 7)])]
    (∃ t', write .add (.int 3) "player.bag.gold" ["player", "bag", "gold"] t = .ok (.int 3, t') ∧
      IsStored ["player", "bag", "gold"] (.int 3) t t' ∧
      write .set .null "player.bag.gold" ["player", "bag", "gold"] t' =
        write .set .null "player.bag.gold" ["player", "bag", "gold"] t) ∧
    ∃ q, t.ObstructedAt ["name", "first"] q := by
  intro t
  obtain ⟨-, hbag, -, hclear, hafter⟩ := write_stores_at_path .add (.int 3) "player.bag.gold"
    (List.cons_ne_nil "player" ["bag", "gold"]) t
  obtain ⟨-, hname, -⟩ := write_stores_at_path .set .null "name.first"
    (List.cons_ne_nil "name" ["first"]) t
  have hunobstructed : ¬∃ q, t.ObstructedAt ["player", "bag", "gold"] q := by
    intro h
    obtain ⟨key, h⟩ := hbag.mpr h
    cases h
  obtain ⟨t', hw, hstored⟩ := (hclear hunobstructed).2 (.int 3) rfl
  exact ⟨⟨t', hw, hstored, (hafter _ _ hw).2 _ _⟩, hname.mp ⟨"name", rfl⟩⟩

end Knowledge

end ProseGrammar
