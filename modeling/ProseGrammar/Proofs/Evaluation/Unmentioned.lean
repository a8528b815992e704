import ProseGrammar.Proofs.Evaluation.Paired
import ProseGrammar.Proofs.Evaluation.Scopes

/-!
# Knowledge that a grammar does not mention

A grammar mentions a key of knowledge if it is the first segment of a reference that its rules read
or write. Two runs whose knowledge agrees on these keys go the same way, however much their
knowledge differs otherwise: they end in the same text, in knowledge that agrees on these keys
again, and with every other key as it was. Only the messages of faults may tell them apart, because
they list the keys that are there.
-/

namespace ProseGrammar

/-- The relation between faults that tells none apart. -/
def Fault.Any (_ _ : Fault) : Prop :=
  True

theorem Fault.any_refl (f : Fault) : Fault.Any f f := trivial

/-! ### Agreement on keys -/

namespace Knowledge

/-- Two tables that have the same values under some keys. -/
def AgreeOn (keys : List String) (k k' : Knowledge) : Prop :=
  ∀ key ∈ keys, k.get? key = k'.get? key

theorem AgreeOn.set {keys : List String} {k k' : Knowledge} (h : AgreeOn keys k k') (key : String)
    (value : Value) : AgreeOn keys (k.set key value) (k'.set key value) := by
  intro other ho
  rw [Table.get?_set, Table.get?_set, h other ho]

theorem write_pairs {keys : List String} {k k' : Knowledge} (h : AgreeOn keys k k')
    (op : AssignOp) (value : Value) (target : String) (path : List String)
    (hpath : ∀ key ∈ path.head?, key ∈ keys) :
    Paired (fun e e' => e.1 = e'.1 ∧ AgreeOn keys e.2 e'.2) Fault.Any
      (write op value target path k) (write op value target path k') := by
  cases path with
  | nil => exact .error trivial
  | cons key path =>
    rw [write_cons, write_cons, h key (hpath key rfl)]
    exact paired_bind_same Fault.any_refl _ fun e => .ok ⟨rfl, h.set key e.2⟩

end Knowledge

/-! ### Contexts -/

variable {σ : Type}

/-- Two contexts that differ at most in knowledge under other keys. -/
structure Context.AgreeOn (keys : List String) (c d : Context σ) : Prop where
  frame : c.frame = d.frame
  draws : c.draws = d.draws
  knowledge : ∃ k k', c.knowledge = .object k ∧ d.knowledge = .object k' ∧
    Knowledge.AgreeOn keys k k'

/-- Whether a reference, if it is one of knowledge, starts with one of some keys. -/
def Reference.StartsIn (keys : List String) (r : Reference) : Prop :=
  r.isKnowledge = true → ∀ key ∈ r.path.head?, key ∈ keys

theorem paired_blameReference {R : Outcome σ → Outcome σ → Prop} {r s : Except Fault (Outcome σ)}
    (h : Paired R Fault.Any r s) (target : Reference) :
    Paired R Fault.Any (blameReference target r) (blameReference target s) := by
  cases h with
  | ok h => exact .ok h
  | @error f f' h => cases f <;> cases f' <;> exact .error trivial

section

variable [DrawSource σ] {keys : List String} {c d : Context σ}

theorem selectItem_pairs (items : List Value) (h : c.AgreeOn keys d) :
    Paired (Outcome.Pairs (Context.AgreeOn keys)) Fault.Any (selectItem items c)
      (selectItem items d) := by
  have hdraws : ∀ draws : σ, Context.AgreeOn keys { c with draws } { d with draws } :=
    fun draws => ⟨h.frame, rfl, h.knowledge⟩
  unfold selectItem
  rw [h.draws]
  split
  · exact .ok ⟨rfl, h⟩
  · dsimp only
    split <;>
    · refine paired_bind_same Fault.any_refl _ fun index => ?_
      split
      · exact .ok ⟨rfl, hdraws _⟩
      · exact .error trivial

theorem readKnowledge_pairs (key : String) (path : List String) (h : c.AgreeOn keys d)
    (hkey : key ∈ keys) : Paired (Outcome.Pairs (Context.AgreeOn keys)) Fault.Any
      (readKnowledge (key :: path) c) (readKnowledge (key :: path) d) := by
  obtain ⟨k, k', hk, hk', hagree⟩ := h.knowledge
  unfold readKnowledge
  rw [hk, hk', Value.resolve, Value.resolve, ← hagree key hkey]
  cases Table.get? k key with
  | none => exact .error trivial
  | some v =>
    cases v with
    | null => exact .error trivial
    | _ =>
      dsimp only
      split
      · exact .error trivial
      · exact selectItem_pairs _ h
      · exact .ok ⟨rfl, h⟩

omit [DrawSource σ] in
theorem assignKnowledge_pairs (target : Reference) (op : AssignOp) (value : Value)
    (h : c.AgreeOn keys d) (ht : ∀ key ∈ target.path.head?, key ∈ keys) :
    Paired (Outcome.Pairs (Context.AgreeOn keys)) Fault.Any
      (assignKnowledge target op value c) (assignKnowledge target op value d) := by
  obtain ⟨k, k', hk, hk', hagree⟩ := h.knowledge
  have hwrite : ∀ assigned (t : Knowledge),
      Value.write op assigned target.dotted target.path (.object t) =
        Knowledge.write op assigned target.dotted target.path t >>= fun e =>
          pure (e.1, .object e.2) := fun _ _ => rfl
  unfold assignKnowledge
  rw [hk, hk']
  dsimp only
  split <;>
  · refine paired_bind_same Fault.any_refl _ fun assigned => ?_
    rw [hwrite, hwrite, bind_assoc, bind_assoc]
    refine paired_bind (Knowledge.write_pairs hagree op assigned _ _ ht) fun e e' he => ?_
    obtain ⟨stored, t⟩ := e
    obtain ⟨stored', t'⟩ := e'
    obtain ⟨rfl, hagree'⟩ := he
    simp only [pure_bind]
    refine paired_bind_same Fault.any_refl _ fun _ => ?_
    refine paired_bind_same Fault.any_refl _ fun _ => ?_
    exact .ok ⟨rfl, h.frame, h.draws, t, t', rfl, rfl, hagree'⟩

omit [DrawSource σ] in
theorem assignVariable_pairs (target : Reference) (op : AssignOp) (value : Value)
    (h : c.AgreeOn keys d) :
    Paired (Outcome.Pairs (Context.AgreeOn keys)) Fault.Any
      (assignVariable target op value c) (assignVariable target op value d) := by
  have hframe : ∀ frame, Context.AgreeOn keys { c with frame } { d with frame } :=
    fun frame => ⟨rfl, h.draws, h.knowledge⟩
  unfold assignVariable
  rw [h.frame]
  split
  · exact .error trivial
  · exact paired_bind_same Fault.any_refl _ fun stored => .ok ⟨rfl, hframe _⟩
  · dsimp only
    split
    · exact paired_bind_same Fault.any_refl _ fun root =>
        paired_bind_same Fault.any_refl _ fun e => .ok ⟨rfl, hframe _⟩
    · exact paired_bind_same Fault.any_refl _ fun root =>
        paired_bind_same Fault.any_refl _ fun e => .ok ⟨rfl, hframe _⟩
    · exact .error trivial

theorem agreeOn_pairedSteps (keys : List String) :
    PairedSteps (Context.AgreeOn (σ := σ) keys) Fault.Any (Reference.StartsIn keys)
      (Reference.StartsIn keys) where
  fault := Fault.any_refl
  frame h := h.frame
  pick := by
    intro c d h r
    rw [h.draws]
    cases r.pick? d.draws with
    | error fault => exact .error trivial
    | ok picked => exact .ok ⟨rfl, h.frame, rfl, h.knowledge⟩
  read := by
    intro c d target h ht hknowledge hpath
    obtain ⟨path, isKnowledge⟩ := target
    obtain ⟨key, path, rfl⟩ := List.exists_cons_of_ne_nil hpath
    exact paired_blameReference (readKnowledge_pairs key path h (ht hknowledge key rfl)) _
  assign := by
    intro c d target op value h ht
    unfold assign
    split
    next hknowledge => exact assignKnowledge_pairs target op value h (ht hknowledge)
    next => exact assignVariable_pairs target op value h

end

/-! ### Keys that are not written -/

/-- Whether the knowledge of a context, if it is an object, changes at most under some keys. -/
def Context.ChangedUnder (keys : List String) (c c' : Context σ) : Prop :=
  ∀ k, c.knowledge = .object k → ∃ k', c'.knowledge = .object k' ∧
    ∀ key, key ∉ keys → Table.get? k' key = Table.get? k key

theorem Knowledge.write_get? {op : AssignOp} {value : Value} {target : String}
    {path : List String} {t t' : Knowledge} {stored : Value}
    (h : Knowledge.write op value target path t = .ok (stored, t')) (key : String)
    (hkey : path.head? ≠ some key) : t'.get? key = t.get? key := by
  cases path with
  | nil => cases h
  | cons first path =>
    obtain ⟨v, -, rfl⟩ := write_cons_ok h
    rw [Table.get?_set, if_neg fun heq => hkey (congrArg some heq)]

theorem Context.changedUnder_keptBySteps (keys : List String) :
    KeptBySteps (ChangedUnder (σ := σ) keys) (Reference.StartsIn keys) where
  refl c k hk := ⟨k, hk, fun _ _ => rfl⟩
  trans hab hbc k hk := by
    obtain ⟨k', hk', hfirst⟩ := hab k hk
    obtain ⟨k'', hk'', hsecond⟩ := hbc k' hk'
    exact ⟨k'', hk'', fun key hkey => (hsecond key hkey).trans (hfirst key hkey)⟩
  draw c draws k hk := ⟨k, hk, fun _ _ => rfl⟩
  assign := by
    intro target op value c o ht h k hk
    unfold ProseGrammar.assign at h
    split at h
    next hknowledge =>
      obtain ⟨assigned, t, t', hc, ho, hw, -⟩ := assignKnowledge_ok h
      obtain rfl : t = k := by
        rw [hc] at hk
        injection hk
      refine ⟨t', by rw [ho], fun key hkey => Knowledge.write_get? hw key fun hhead => ?_⟩
      exact hkey (ht hknowledge key hhead)
    next =>
      obtain ⟨name, path, entry, -, -, ho⟩ := assignVariable_ok h
      exact ⟨k, by rw [ho]; exact hk, fun _ _ => rfl⟩

/-! ### Runs -/

/-- The keys of knowledge that a grammar mentions: the first segments of all references to knowledge
in its rules, of those that are read and of those that are assigned to. -/
def Grammar.knowledgeKeys (g : Grammar) : List String :=
  ((g.reads ++ g.targets).filter fun t => t.isKnowledge).filterMap fun t => t.path.head?

theorem startsIn_knowledgeKeys (g : Grammar) (t : Reference) (h : t ∈ g.reads ++ g.targets) :
    t.StartsIn g.knowledgeKeys := fun hknowledge _ hkey =>
  List.mem_filterMap.mpr ⟨t, List.mem_filter.mpr ⟨h, hknowledge⟩, hkey⟩

theorem staysWithin_knowledgeKeys {g : Grammar} {name : String} {r : Rule}
    (h : g.rule? name = some r) :
    r.StaysWithin (Reference.StartsIn g.knowledgeKeys) (Reference.StartsIn g.knowledgeKeys) where
  reads t ht := startsIn_knowledgeKeys g t
    (List.mem_append_left _ (Grammar.reads_of_rule? h t ht))
  targets t ht := startsIn_knowledgeKeys g t
    (List.mem_append_right _ (Grammar.targets_of_rule? h t ht))

section

variable [DrawSource σ]

theorem Grammar.run_pairs (g : Grammar) (l : DepthLimit) {c d : Context σ}
    (h : c.AgreeOn g.knowledgeKeys d) :
    Paired (Outcome.Pairs (Context.AgreeOn g.knowledgeKeys)) Fault.Any (g.run l c) (g.run l d) := by
  obtain ⟨k, k', hk, hk', -⟩ := h.knowledge
  exact Grammar.run_paired (agreeOn_pairedSteps g.knowledgeKeys) g g nofun
    (fun name _ => ⟨rfl, fun r hr => staysWithin_knowledgeKeys hr⟩) l ⟨k, hk⟩ ⟨k', hk'⟩ h

theorem Grammar.run_changedUnder {g : Grammar} {l : DepthLimit} {c : Context σ} {o : Outcome σ}
    {k : Knowledge} (hk : c.knowledge = .object k) (h : g.run l c = .ok o) :
    c.ChangedUnder g.knowledgeKeys o.context := by
  have htargets : ∀ t ∈ g.targets, t.StartsIn g.knowledgeKeys := fun t ht =>
    startsIn_knowledgeKeys g t (List.mem_append_right _ ht)
  obtain ⟨r, hr, h⟩ := Grammar.thread_of_run ⟨k, hk⟩ h
  exact Rule.thread_keeps (Context.changedUnder_keptBySteps g.knowledgeKeys) g htargets l _
    (staysWithin_knowledgeKeys hr).targets h

/-- Executions with the same draws, on knowledge that agrees on the keys that the grammar mentions:
both succeed, or both fail. If they succeed they give the same output, the knowledge that they leave
agrees on these keys, and each leaves every other key as it was. -/
theorem executeWith_agreeOn (g : Generator) (k k' : Knowledge) (seed : Value) (draws : σ)
    (h : Knowledge.AgreeOn g.grammar.knowledgeKeys k k') :
    Paired
      (fun e e' => e.output = e'.output ∧ ∃ u u' : Knowledge,
        e.knowledge = .object u ∧ e'.knowledge = .object u' ∧
        Knowledge.AgreeOn g.grammar.knowledgeKeys u u' ∧
        (∀ key, key ∉ g.grammar.knowledgeKeys → u.get? key = k.get? key) ∧
        (∀ key, key ∉ g.grammar.knowledgeKeys → u'.get? key = k'.get? key))
      Fault.Any (g.executeWith (.object k) seed draws) (g.executeWith (.object k') seed draws) := by
  let c : Context σ := ⟨.object k, [], draws⟩
  let d : Context σ := ⟨.object k', [], draws⟩
  have hcd : c.AgreeOn g.grammar.knowledgeKeys d := ⟨rfl, rfl, k, k', rfl, rfl, h⟩
  rw [executeWith_object, executeWith_object]
  refine paired_bind_ok (g.grammar.run_pairs g.settings.depthLimit hcd) fun o p ho hp hop => ?_
  obtain ⟨u, u', hu, hu', hagree⟩ := hop.context.knowledge
  obtain ⟨v, hv, hkeep⟩ := Grammar.run_changedUnder (c := c) rfl ho k rfl
  obtain ⟨v', hv', hkeep'⟩ := Grammar.run_changedUnder (c := d) rfl hp k' rfl
  obtain rfl : u = v := Value.object.inj (hu.symm.trans hv)
  obtain rfl : u' = v' := Value.object.inj (hu'.symm.trans hv')
  rw [hop.value]
  split <;>
  · refine paired_bind_same Fault.any_refl _ fun output => ?_
    refine paired_bind_same Fault.any_refl _ fun _ => ?_
    exact .ok ⟨rfl, u, u', hu, hu', hagree, hkeep, hkeep'⟩

end

/-- A generator that greets `$$.name` and counts in `$$.visits.total`. -/
def Generator.greetsVisitor : Generator :=
  ⟨⟨[("start", ⟨"start", [⟨[.literal (.text "Hello"), .reference ⟨["name"], true⟩,
    .silent (.assign ⟨["visits", "total"], true⟩ .add (.literal (.int 1)))], .float 1⟩]⟩)]⟩,
    Settings.standard⟩

theorem executeWith_agreeOn_greetsVisitor :
    ∃ e e' u u', Generator.greetsVisitor.executeWith
        (.object [("name", .text "Ann"), ("code", .int 7)]) .null (DrawScript.mk 0 []) = .ok e ∧
      Generator.greetsVisitor.executeWith
        (.object [("code", .list []), ("name", .text "Ann"), ("hp", .null)]) .null
          (DrawScript.mk 0 []) = .ok e' ∧
      e.output = e'.output ∧ e.knowledge = .object u ∧ e'.knowledge = .object u' ∧
      Table.get? u "visits" = Table.get? u' "visits" ∧ Table.get? u "code" = some (.int 7) := by
  have hkeys : Generator.greetsVisitor.grammar.knowledgeKeys = ["name", "visits"] := rfl
  have hagree : Knowledge.AgreeOn Generator.greetsVisitor.grammar.knowledgeKeys
      [("name", .text "Ann"), ("code", .int 7)]
      [("code", .list []), ("name", .text "Ann"), ("hp", .null)] := by
    intro key hkey
    rw [hkeys] at hkey
    rcases List.mem_cons.mp hkey with rfl | hkey
    · rfl
    · obtain rfl := List.mem_singleton.mp hkey
      rfl
  have hpaired := executeWith_agreeOn Generator.greetsVisitor _ _ .null (DrawScript.mk 0 []) hagree
  have hok : (Generator.greetsVisitor.executeWith
      (.object [("name", .text "Ann"), ("code", .int 7)]) .null (DrawScript.mk 0 [])).isOk = true := by
    decide +kernel
  cases he : Generator.greetsVisitor.executeWith
      (.object [("name", .text "Ann"), ("code", .int 7)]) .null (DrawScript.mk 0 []) with
  | error fault => simp [he, Except.isOk, Except.toBool] at hok
  | ok e =>
    cases he' : Generator.greetsVisitor.executeWith
        (.object [("code", .list []), ("name", .text "Ann"), ("hp", .null)]) .null
        (DrawScript.mk 0 []) with
    | error fault => rw [he, he'] at hpaired; cases hpaired
    | ok e' =>
      rw [he, he'] at hpaired
      obtain ⟨houtput, u, u', hu, hu', hagree', hkeep, -⟩ := hpaired
      refine ⟨e, e', u, u', rfl, rfl, houtput, hu, hu', hagree' "visits" (by simp [hkeys]), ?_⟩
      exact hkeep "code" (by simp [hkeys])

end ProseGrammar
