import ProseGrammar.Proofs.Evaluation.Scopes
import ProseGrammar.Proofs.Foreseen

/-!
# Properties that values have with their parts

A value is made of parts: the items of a list, the keys and the values of an object. If a property
of values is one of all their parts, no step of an evaluation leaves it: what is read is a part of
the knowledge or of a variable, what is written is put together from parts, and the keys that come
to it are those that the grammar names.
-/

namespace ProseGrammar

/-- A property that a value has if its parts have it, the keys of objects among them; there may be
values that are lists, or none. -/
structure Value.Hereditary (P : Value → Prop) (key : String → Prop) (lists : Prop) : Prop where
  null : P .null
  bool : ∀ b, P (.bool b)
  number : ∀ n, P (.number n)
  text : ∀ s, P (.text s)
  list : ∀ items, P (.list items) ↔ lists ∧ ∀ item ∈ items, P item
  object : ∀ t, P (.object t) ↔ ∀ entry ∈ t, key entry.1 ∧ P entry.2
  weighted : ∀ v w, P (.weighted v w) → P v

variable {P : Value → Prop} {key : String → Prop} {lists : Prop}

/-! ### Tables -/

namespace Table

/-- Whether the keys and values of a table have their properties. -/
def Holds (key : String → Prop) (P : Value → Prop) (t : Table Value) : Prop :=
  ∀ entry ∈ t, key entry.1 ∧ P entry.2

variable {t : Table Value} {name : String} {value : Value}

theorem Holds.get? (ht : t.Holds key P) (h : t.get? name = some value) : P value :=
  (ht (name, value) (mem_of_get? h)).2

theorem Holds.set (ht : t.Holds key P) (hname : key name) (hvalue : P value) :
    (t.set name value).Holds key P := by
  intro entry hentry
  rcases mem_set t name value entry hentry with rfl | hentry
  · exact ⟨hname, hvalue⟩
  · exact ht entry hentry

end Table

namespace Value.Hereditary

variable (H : Hereditary P key lists)
include H

theorem getD_get? {t : Table Value} (ht : t.Holds key P) (name : String) :
    P ((t.get? name).getD .null) := by
  cases h : t.get? name with
  | none => exact H.null
  | some value => exact ht.get? h

/-! ### Reading -/

theorem resolve {place path : List String} {current value : Value} (hcurrent : P current)
    (h : Value.resolve place current path = .ok value) : P value := by
  induction path generalizing place current with
  | nil =>
    obtain rfl := Except.ok.inj h
    exact hcurrent
  | cons name path ih =>
    unfold Value.resolve at h
    dsimp only at h
    split at h
    next entries =>
      split at h
      · cases h
      · cases h
      next inner hinner =>
        have hentries : Table.Holds key P entries := (H.object entries).mp hcurrent
        exact ih (hentries.get? hinner) h
    · cases h

theorem descend {path : List String} {current value : Value} (hcurrent : P current)
    (h : current.descend path = .ok value) : P value := by
  induction path generalizing current with
  | nil =>
    obtain rfl := Except.ok.inj h
    exact hcurrent
  | cons name path ih =>
    unfold Value.descend at h
    split at h
    next entries => exact ih (H.getD_get? ((H.object entries).mp hcurrent) name) h
    next =>
      obtain ⟨_, _, h⟩ := (bind_ok_iff _ _ _).mp h
      cases h

theorem coerce {v value : Value} (hv : P v) (h : v.coerce = .ok value) : P value := by
  obtain ⟨n, _, h⟩ := (bind_ok_iff _ _ _).mp h
  cases n with
  | none =>
    obtain rfl := Except.ok.inj h
    exact hv
  | some n =>
    obtain rfl := Except.ok.inj h
    exact H.number n

/-! ### Updating -/

theorem of_number {r : Except Fault Number} {value : Value} (h : Value.number <$> r = .ok value) :
    P value := by
  cases r with
  | error fault => cases h
  | ok n =>
    obtain rfl := Except.ok.inj h
    exact H.number n

theorem initial {value first : Value} (h : value.initial = .ok first) : P first := by
  obtain ⟨n, _, h⟩ := (bind_ok_iff _ _ _).mp h
  cases n with
  | none =>
    obtain rfl := Except.ok.inj h
    exact H.text ""
  | some n =>
    obtain rfl := Except.ok.inj h
    exact H.number _

theorem increase {stored value result : Value} (hstored : P stored) (hvalue : P value)
    (h : stored.increase value = .ok result) : P result := by
  obtain ⟨a, _, h⟩ := (bind_ok_iff _ _ _).mp h
  obtain ⟨b, _, h⟩ := (bind_ok_iff _ _ _).mp h
  split at h
  · exact H.of_number h
  next =>
    obtain rfl := Except.ok.inj h
    obtain ⟨hlists, hitems⟩ := (H.list _).mp hstored
    refine (H.list _).mpr ⟨hlists, fun item hitem => ?_⟩
    rcases List.mem_append.mp hitem with hitem | hitem
    · exact hitems item hitem
    · exact List.mem_singleton.mp hitem ▸ hvalue
  · obtain ⟨_, _, h⟩ := (bind_ok_iff _ _ _).mp h
    obtain ⟨_, _, h⟩ := (bind_ok_iff _ _ _).mp h
    obtain rfl := Except.ok.inj h
    exact H.text _

theorem decrease {stored value result : Value} {target : String}
    (h : stored.decrease value target = .ok result) : P result := by
  obtain ⟨a, _, h⟩ := (bind_ok_iff _ _ _).mp h
  obtain ⟨b, _, h⟩ := (bind_ok_iff _ _ _).mp h
  split at h
  · exact H.of_number h
  · cases h

theorem start {stored : Option Value} {value first : Value} (hstored : P (stored.getD .null))
    (h : Value.start stored value = .ok first) : P first := by
  unfold Value.start at h
  split at h
  · exact H.initial h
  · obtain rfl := Except.ok.inj h
    exact hstored

theorem update {op : AssignOp} {stored : Option Value} {value result : Value} {target : String}
    (hstored : P (stored.getD .null)) (hvalue : P value)
    (h : Value.update op stored value target = .ok result) : P result := by
  cases op with
  | set =>
    obtain rfl := Except.ok.inj h
    exact hvalue
  | add =>
    rw [update_add] at h
    obtain ⟨first, hfirst, h⟩ := (bind_ok_iff _ _ _).mp h
    exact H.increase (H.start hstored hfirst) hvalue h
  | subtract =>
    rw [update_subtract] at h
    obtain ⟨first, _, h⟩ := (bind_ok_iff _ _ _).mp h
    exact H.decrease h
  | other symbol =>
    rw [update_other] at h
    obtain ⟨first, _, h⟩ := (bind_ok_iff _ _ _).mp h
    obtain ⟨_, _, h⟩ := (bind_ok_iff _ _ _).mp h
    obtain ⟨_, _, h⟩ := (bind_ok_iff _ _ _).mp h
    cases h

theorem apply {op : BinaryOp} {left right value : Value} (h : op.apply left right = .ok value) :
    P value := by
  obtain ⟨a, _, h⟩ := (bind_ok_iff _ _ _).mp h
  obtain ⟨b, _, h⟩ := (bind_ok_iff _ _ _).mp h
  split at h
  · unfold BinaryOp.onNumbers at h
    split at h
    · exact H.of_number h
    · exact H.of_number h
    · obtain rfl := Except.ok.inj h
      exact H.bool _
    · cases h
  · obtain ⟨_, _, h⟩ := (bind_ok_iff _ _ _).mp h
    obtain ⟨_, _, h⟩ := (bind_ok_iff _ _ _).mp h
    split at h
    · obtain rfl := Except.ok.inj h
      exact H.text _
    · cases h
    · obtain rfl := Except.ok.inj h
      exact H.bool _
    · cases h

/-! ### Writing -/

section

variable {op : AssignOp} {value stored : Value} {target : String} {path : List String}

theorem writeEntry {name : String} {entry : Option Value} {v : Value}
    (hentry : P (entry.getD .null)) (hvalue : P value) (hpath : ∀ name ∈ path, key name)
    (h : Knowledge.writeEntry op value target name path entry = .ok (stored, v)) :
    P stored ∧ P v := by
  induction path generalizing name entry v with
  | nil =>
    obtain ⟨_, hupdate, h⟩ := (bind_ok_iff _ _ _).mp h
    cases h
    have hupdated := H.update hentry hvalue hupdate
    exact ⟨hupdated, hupdated⟩
  | cons next path ih =>
    obtain ⟨hnext, hrest⟩ := List.forall_mem_cons.mp hpath
    rcases Knowledge.writeEntry_ok h with ⟨hnil, -, -⟩ | ⟨inner, made, hinner, rfl, hw⟩
    · cases hnil
    -- the object that the write goes on in: the one stored there, or a new one
    have hinner : Table.Holds key P inner := by
      rcases hinner with ⟨-, rfl⟩ | rfl
      · exact fun _ h => nomatch h
      · exact (H.object inner).mp hentry
    obtain ⟨w, he, rfl⟩ := Knowledge.write_cons_ok hw
    obtain ⟨hstored, hw⟩ := ih (H.getD_get? hinner next) hrest he
    exact ⟨hstored, (H.object _).mpr (hinner.set hnext hw)⟩

theorem write {t t' : Knowledge} (ht : Table.Holds key P t) (hvalue : P value)
    (hpath : ∀ name ∈ path, key name)
    (h : Knowledge.write op value target path t = .ok (stored, t')) :
    P stored ∧ Table.Holds key P t' := by
  cases path with
  | nil => cases h
  | cons name path =>
    obtain ⟨hname, hrest⟩ := List.forall_mem_cons.mp hpath
    obtain ⟨v, he, rfl⟩ := Knowledge.write_cons_ok h
    obtain ⟨hstored, hv⟩ := H.writeEntry (H.getD_get? ht name) hvalue hrest he
    exact ⟨hstored, ht.set hname hv⟩

end

end Value.Hereditary

/-! ### Contexts -/

variable {σ : Type}

/-- Whether the knowledge and the variables of a context have their properties. -/
structure Context.Holds (key : String → Prop) (P : Value → Prop) (c : Context σ) : Prop where
  knowledge : P c.knowledge
  frame : c.frame.Holds key P

namespace Value.Hereditary

variable (H : Hereditary P key lists) {c : Context σ} {o : Outcome σ}
include H

theorem readVariable {name : String} {path : List String} (hc : c.Holds key P)
    (h : ProseGrammar.readVariable name path c = .ok o) : P o.value := by
  unfold ProseGrammar.readVariable at h
  split at h
  · cases h
  next root hroot =>
    obtain ⟨inner, hinner, h⟩ := (bind_ok_iff _ _ _).mp h
    obtain ⟨value, hvalue, h⟩ := (bind_ok_iff _ _ _).mp h
    cases h
    exact H.coerce (H.descend (hc.frame.get? hroot) hinner) hvalue

theorem assign {target : Reference} {op : AssignOp} {value : Value} (hc : c.Holds key P)
    (hvalue : P value) (htarget : ∀ name ∈ target.path, key name)
    (h : ProseGrammar.assign target op value c = .ok o) :
    P o.value ∧ o.context.Holds key P := by
  unfold ProseGrammar.assign at h
  split at h
  · obtain ⟨assigned, t, t', hk, ho, hw, hassigned⟩ := assignKnowledge_ok h
    have hassigned : P assigned := by
      rcases hassigned with rfl | hcoerce
      · exact hvalue
      · exact H.coerce hvalue hcoerce
    have ht : Table.Holds key P t := (H.object t).mp (hk ▸ hc.knowledge)
    obtain ⟨hstored, ht'⟩ := H.write ht hassigned htarget hw
    rw [ho]
    exact ⟨hstored, (H.object t').mpr ht', hc.frame⟩
  · obtain ⟨name, path, entry, hpath, hw, ho⟩ := assignVariable_ok h
    obtain ⟨hname, hrest⟩ := List.forall_mem_cons.mp (hpath ▸ htarget)
    obtain ⟨hstored, hentry⟩ := H.writeEntry (H.getD_get? hc.frame name) hvalue hrest hw
    rw [ho]
    exact ⟨hstored, hc.knowledge, hc.frame.set hname hentry⟩

theorem selectItem [DrawSource σ] {items : List Value} (hitems : ∀ item ∈ items, P item)
    (hc : c.Holds key P) (h : ProseGrammar.selectItem items c = .ok o) :
    P o.value ∧ o.context.Holds key P := by
  have hchoice : ∀ choice ∈ items.map Value.choice, P choice.value := by
    intro choice hchoice
    obtain ⟨item, hitem, rfl⟩ := List.mem_map.mp hchoice
    have hpart := hitems item hitem
    cases item with
    | weighted v w => exact H.weighted v w hpart
    | _ => exact hpart
  unfold ProseGrammar.selectItem at h
  split at h
  · cases h
    exact ⟨H.text "", hc⟩
  · dsimp only at h
    split at h
    all_goals
      obtain ⟨index, _, h⟩ := (bind_ok_iff _ _ _).mp h
      split at h
      next choice hget =>
        cases h
        exact ⟨hchoice choice (List.mem_of_getElem? hget), hc.knowledge, hc.frame⟩
      next => cases h

theorem readKnowledge [DrawSource σ] {path : List String} (hc : c.Holds key P)
    (h : ProseGrammar.readKnowledge path c = .ok o) : P o.value ∧ o.context.Holds key P := by
  unfold ProseGrammar.readKnowledge at h
  split at h
  · cases h
  next items hitems => exact H.selectItem ((H.list items).mp (H.resolve hc.knowledge hitems)).2 hc h
  next value hvalue _ =>
    cases h
    exact ⟨H.resolve hc.knowledge ‹_›, hc⟩

end Value.Hereditary

end ProseGrammar
