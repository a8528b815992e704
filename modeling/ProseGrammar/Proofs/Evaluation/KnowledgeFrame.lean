import ProseGrammar.Generator
import ProseGrammar.Proofs.Evaluation.Scopes

/-!
# What a run leaves alone

A run changes its knowledge only at the targets of assignments. A path that neither leads to a
target nor through one has the same value afterwards, and the keys that the knowledge had before
come first and in their order. Objects that a write makes on its way do not count against this:
where they are made nothing could be looked up before, and nothing can be looked up afterwards but
the target.
-/

namespace ProseGrammar

variable {σ : Type}

/-! ### Looking up along a path -/

/-- The value at the end of a path through nested objects, if there is one. -/
def Value.lookup? (v : Value) : List String → Option Value
  | [] => some v
  | key :: path =>
    match v with
    | .object entries =>
      match Table.get? entries key with
      | some inner => inner.lookup? path
      | none => none
    | _ => none

/-- Whether neither of two paths leads through the end of the other. -/
def Incomparable (p q : List String) : Prop :=
  ¬p <+: q ∧ ¬q <+: p

theorem incomparable_cons {key : String} {p q : List String} (h : Incomparable (key :: p) (key :: q)) :
    Incomparable p q := by
  simpa [Incomparable, List.cons_prefix_cons] using h

theorem ne_nil_of_incomparable {p q : List String} (h : Incomparable p q) : q ≠ [] := by
  intro hq
  exact h.2 (by rw [hq]; exact List.nil_prefix)

theorem lookup?_object (t : Knowledge) (key : String) (path : List String) :
    (Value.object t).lookup? (key :: path) = (t.get? key).bind fun v => v.lookup? path := by
  simp only [Value.lookup?]
  cases t.get? key <;> rfl

/-- Where a write makes an object, nothing could be looked up before. -/
theorem lookup?_made (stored : Option Value) (h : stored.getD .null = .null) (q : List String)
    (hq : q ≠ []) : (stored.bind fun v => v.lookup? q) = (Value.object []).lookup? q := by
  obtain ⟨key, path, rfl⟩ := List.exists_cons_of_ne_nil hq
  cases stored with
  | none => rfl
  | some v =>
    obtain rfl : v = .null := by simpa using h
    rfl

/-! ### Writing -/

/-- A write leaves every path alone that is incomparable with the path written to. -/
theorem Knowledge.write_lookup? (op : AssignOp) (value : Value) (target : String)
    (p : List String) (t : Knowledge) (stored : Value) (t' : Knowledge) (q : List String)
    (h : Knowledge.write op value target p t = .ok (stored, t')) (hpq : Incomparable p q) :
    (Value.object t').lookup? q = (Value.object t).lookup? q := by
  induction p generalizing t stored t' q with
  | nil => cases h
  | cons key path ih =>
    obtain ⟨other, q, rfl⟩ := List.exists_cons_of_ne_nil (ne_nil_of_incomparable hpq)
    obtain ⟨v, he, rfl⟩ := write_cons_ok h
    rw [lookup?_object, lookup?_object, Table.get?_set]
    -- the paths go on in one object under a shared key, and in different entries otherwise
    by_cases hk : key = other
    · subst hk
      have hq := incomparable_cons hpq
      rw [if_pos rfl]
      rcases writeEntry_ok he with ⟨rfl, -, -⟩ | ⟨inner, made, hinner, rfl, hw⟩
      · exact absurd (List.cons_prefix_cons.mpr ⟨rfl, List.nil_prefix⟩) hpq.1
      · have hsame := ih inner stored made q hw hq
        show (Value.object made).lookup? q = _
        rw [hsame]
        rcases hinner with ⟨hnull, rfl⟩ | hobject
        · exact (lookup?_made _ hnull q (ne_nil_of_incomparable hq)).symm
        · rw [hobject]
          rfl
    · rw [if_neg hk]

/-- A write adds no other key than the first one of its path, and that one at the end. -/
theorem Knowledge.write_keys (op : AssignOp) (value : Value) (target : String)
    (p : List String) (t : Knowledge) (stored : Value) (t' : Knowledge)
    (h : Knowledge.write op value target p t = .ok (stored, t')) :
    ∃ added, t'.keys = t.keys ++ added ∧ ∀ key ∈ added, p.head? = some key := by
  cases p with
  | nil => cases h
  | cons key path =>
    obtain ⟨v, -, rfl⟩ := write_cons_ok h
    rw [Table.keys_set]
    split
    · exact ⟨[], by simp, by simp⟩
    · exact ⟨[key], rfl, by simp⟩

/-! ### Runs -/

/-- Whether knowledge differs from earlier knowledge at most along paths of a list. -/
structure Knowledge.ChangedAlong (paths : List (List String)) (k k' : Knowledge) : Prop where
  lookup? : ∀ q, (∀ p ∈ paths, Incomparable p q) →
    (Value.object k').lookup? q = (Value.object k).lookup? q
  keys : ∃ added, Table.keys k' = Table.keys k ++ added ∧
    ∀ key ∈ added, ∃ p ∈ paths, p.head? = some key

/-- The paths of knowledge that the assignments of a grammar have as targets. -/
def Grammar.knowledgeTargets (g : Grammar) : List (List String) :=
  (g.targets.filter fun t => t.isKnowledge).map fun t => t.path

/-- Whether the knowledge of a context, if it is an object, changes at most along paths of a
list. -/
def Context.ChangedAlong (paths : List (List String)) (c c' : Context σ) : Prop :=
  ∀ k, c.knowledge = .object k →
    ∃ k', c'.knowledge = .object k' ∧ Knowledge.ChangedAlong paths k k'

theorem Knowledge.changedAlong_refl (paths : List (List String)) (k : Knowledge) :
    ChangedAlong paths k k :=
  ⟨fun _ _ => rfl, [], by simp, by simp⟩

theorem Knowledge.changedAlong_trans {paths : List (List String)} {k k' k'' : Knowledge}
    (h : ChangedAlong paths k k') (h' : ChangedAlong paths k' k'') : ChangedAlong paths k k'' := by
  obtain ⟨added, hkeys, hadded⟩ := h.keys
  obtain ⟨added', hkeys', hadded'⟩ := h'.keys
  refine ⟨fun q hq => (h'.lookup? q hq).trans (h.lookup? q hq), added ++ added', ?_, ?_⟩
  · rw [hkeys', hkeys, List.append_assoc]
  · intro key hk
    rcases List.mem_append.mp hk with hk | hk
    · exact hadded key hk
    · exact hadded' key hk

theorem Context.changedAlong_keptBySteps (g : Grammar) :
    KeptBySteps (ChangedAlong (σ := σ) g.knowledgeTargets) fun t => t ∈ g.targets where
  refl c k hk := ⟨k, hk, Knowledge.changedAlong_refl _ k⟩
  trans hab hbc k hk := by
    obtain ⟨k', hk', hkk'⟩ := hab k hk
    obtain ⟨k'', hk'', hk'k''⟩ := hbc k' hk'
    exact ⟨k'', hk'', Knowledge.changedAlong_trans hkk' hk'k''⟩
  draw c draws k hk := ⟨k, hk, Knowledge.changedAlong_refl _ k⟩
  assign := by
    intro target op value c o ht h k hk
    unfold ProseGrammar.assign at h
    split at h
    · rename_i hknowledge
      obtain ⟨assigned, t, t', hc, ho, hw, -⟩ := assignKnowledge_ok h
      obtain rfl : t = k := by
        rw [hc] at hk
        injection hk
      have hmem : target.path ∈ g.knowledgeTargets :=
        List.mem_map.mpr ⟨target, List.mem_filter.mpr ⟨ht, hknowledge⟩, rfl⟩
      obtain ⟨added, hkeys, hadded⟩ := Knowledge.write_keys _ _ _ _ _ _ _ hw
      refine ⟨t', by rw [ho], fun q hq => ?_, added, hkeys, fun key hkey => ?_⟩
      · exact Knowledge.write_lookup? _ _ _ _ _ _ _ q hw (hq _ hmem)
      · exact ⟨target.path, hmem, hadded key hkey⟩
    · obtain ⟨name, path, entry, -, -, ho⟩ := assignVariable_ok h
      exact ⟨k, by rw [ho]; exact hk, Knowledge.changedAlong_refl _ k⟩

/-- A run changes knowledge at most along the targets of the grammar's assignments. -/
theorem Grammar.run_changedAlong [DrawSource σ] {g : Grammar} {l : DepthLimit} {k : Knowledge}
    {frame : Table Value} {draws : σ} {o : Outcome σ}
    (h : g.run l ⟨.object k, frame, draws⟩ = .ok o) :
    ∃ k', o.context.knowledge = .object k' ∧
      Knowledge.ChangedAlong g.knowledgeTargets k k' := by
  unfold Grammar.run at h
  split at h
  · cases h
  · rename_i r hr
    rw [expand_thread g l _ r _ ⟨k, rfl⟩] at h
    exact Rule.thread_keeps (Context.changedAlong_keptBySteps g) g (fun t ht => ht) l _
      (Grammar.targets_of_rule? hr) h k rfl

theorem Generator.knowledge_finish {seed : Value} {o : Outcome σ} {e : Execution}
    (h : Generator.finish seed o = .ok e) : e.knowledge = o.context.knowledge := by
  unfold finish at h
  split at h
  all_goals
    obtain ⟨output, -, h⟩ := (bind_ok_iff _ _ _).mp h
    obtain ⟨shown, -, h⟩ := (bind_ok_iff _ _ _).mp h
    cases h
    rfl

/-- After every execution, every path that is incomparable with the targets of all assignments to
knowledge leads to what it led to before. The keys of the knowledge come first, in their order, and
every key after them is the first one of a target. -/
theorem executeWith_changedAlong [DrawSource σ] (g : Generator) (k : Knowledge) (seed : Value)
    (draws : σ) (e : Execution) (h : g.executeWith (.object k) seed draws = .ok e) :
    ∃ k' : Knowledge, e.knowledge = .object k' ∧
      (∀ q, (∀ p ∈ g.grammar.knowledgeTargets, Incomparable p q) →
        (Value.object k').lookup? q = (Value.object k).lookup? q) ∧
      ∃ added, k'.keys = k.keys ++ added ∧
        ∀ key ∈ added, ∃ p ∈ g.grammar.knowledgeTargets, p.head? = some key := by
  unfold Generator.executeWith at h
  obtain ⟨knowledge, hk, h⟩ := (bind_ok_iff _ _ _).mp h
  cases hk
  obtain ⟨o, ho, h⟩ := (bind_ok_iff _ _ _).mp h
  obtain ⟨k', hk', hchanged⟩ := Grammar.run_changedAlong ho
  exact ⟨k', (Generator.knowledge_finish h).trans hk', hchanged.lookup?, hchanged.keys⟩

/-- A generator that writes to `$$.player.name`, where the object is there, and to `$$.mood.now`,
where it has to be made. -/
def Generator.namesPlayer : Generator :=
  ⟨⟨[("start", ⟨"start", [⟨[.assign ⟨["player", "name"], true⟩ .set (.literal (.text "Ann")),
    .silent (.assign ⟨["mood", "now"], true⟩ .add (.literal (.text "calm")))], .float 1⟩]⟩)]⟩,
    Settings.standard⟩

theorem executeWith_changedAlong_namesPlayer :
    ∃ e k', Generator.namesPlayer.executeWith
        (.object [("day", .null), ("player", .object [("hp", .int 7)])]) .null (DrawScript.mk 0 []) =
          .ok e ∧
      e.knowledge = .object k' ∧ (Value.object k').lookup? ["player", "hp"] = some (.int 7) ∧
      ["day", "player"] <+: Table.keys k' := by
  have hok : (Generator.namesPlayer.executeWith
      (.object [("day", .null), ("player", .object [("hp", .int 7)])]) .null
      (DrawScript.mk 0 [])).isOk = true := by
    decide +kernel
  cases he : Generator.namesPlayer.executeWith
      (.object [("day", .null), ("player", .object [("hp", .int 7)])]) .null (DrawScript.mk 0 []) with
  | error fault => simp [he, Except.isOk, Except.toBool] at hok
  | ok e =>
    obtain ⟨k', hk', hlookup, added, hkeys, _⟩ := executeWith_changedAlong _ _ _ _ e he
    refine ⟨e, k', rfl, hk', ?_, ?_⟩
    · have htargets : Generator.namesPlayer.grammar.knowledgeTargets =
          [["player", "name"], ["mood", "now"]] := rfl
      rw [hlookup ["player", "hp"] (by simp [htargets, Incomparable])]
      rfl
    · rw [hkeys]
      exact List.prefix_append _ _

end ProseGrammar
