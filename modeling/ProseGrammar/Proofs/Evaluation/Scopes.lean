import ProseGrammar.Generator
import ProseGrammar.Proofs.Evaluation.Steps

/-!
# Scopes

Copying the frame of variables for every branch and merging the copy back comes to the same as
threading one frame through. A branch only ever sets variables, so its frame starts with the
variables of its parent, and what is merged back is the whole frame of the branch. The knowledge
that the parts of a branch leave is collected in the same way, and grows in the same way. Both come
from what an assignment does: it sets one key, of the knowledge or of the frame, to a value that it
makes from the one under that key.
-/

namespace ProseGrammar

variable {σ : Type}

/-! ### Writing under a key -/

namespace Knowledge

/-- Assigns to the end of a path from the value under a key, if there is one. Gives the value stored
there and the value that the key has after the assignment. -/
def writeEntry (op : AssignOp) (value : Value) (target key : String) (path : List String)
    (entry : Option Value) : Except Fault (Value × Value) :=
  match path with
  | [] => do
    let stored ← Value.update op entry value target
    return (stored, stored)
  | path => do
    let inner ← match entry.getD .null with
      | .null => pure []
      | .object entries => pure entries
      | _ => throw (.evaluation (.assignThroughProperty key) (some target))
    let (stored, inner) ← write op value target path inner
    return (stored, .object inner)

/-- A write sets the first key of its path, to a value that depends on nothing but the one that the
key had. -/
theorem write_cons (op : AssignOp) (value : Value) (target key : String) (path : List String)
    (t : Knowledge) : write op value target (key :: path) t =
      writeEntry op value target key path (t.get? key) >>= fun e => pure (e.1, t.set key e.2) := by
  cases path with
  | nil =>
    simp only [write, writeEntry]
    cases Value.update op (t.get? key) value target <;> rfl
  | cons next path =>
    simp only [write, writeEntry]
    cases (t.get? key).getD .null with
    | null => simp only [pure_bind, bind_assoc]
    | object entries => simp only [pure_bind, bind_assoc]
    | _ => rfl

theorem write_cons_ok {op : AssignOp} {value : Value} {target key : String} {path : List String}
    {t t' : Knowledge} {stored : Value}
    (h : write op value target (key :: path) t = .ok (stored, t')) :
    ∃ v, writeEntry op value target key path (t.get? key) = .ok (stored, v) ∧ t' = t.set key v := by
  rw [write_cons] at h
  obtain ⟨⟨written, v⟩, he, h⟩ := (bind_ok_iff _ _ _).mp h
  cases h
  exact ⟨v, he, rfl⟩

theorem writeEntry_nil (op : AssignOp) (value : Value) (target key : String)
    (entry : Option Value) : writeEntry op value target key [] entry =
      Value.update op entry value target >>= fun stored => pure (stored, stored) := rfl

/-- Behind a key that has no value, or null, a write goes on in a new object. -/
theorem writeEntry_null {path : List String} (hpath : path ≠ []) {entry : Option Value}
    (h : entry.getD .null = .null) (op : AssignOp) (value : Value) (target key : String) :
    writeEntry op value target key path entry =
      write op value target path [] >>= fun e => pure (e.1, .object e.2) := by
  simp only [writeEntry, h, pure_bind]

theorem writeEntry_object {path : List String} (hpath : path ≠ []) (inner : Knowledge)
    (op : AssignOp) (value : Value) (target key : String) :
    writeEntry op value target key path (some (.object inner)) =
      write op value target path inner >>= fun e => pure (e.1, .object e.2) := by
  simp only [writeEntry, Option.getD_some, pure_bind]

/-- The value under the key is updated itself, or it is an object that is written to; where there is
none, one is made. -/
theorem writeEntry_ok {op : AssignOp} {value : Value} {target key : String} {path : List String}
    {entry : Option Value} {stored v : Value}
    (h : writeEntry op value target key path entry = .ok (stored, v)) :
    (path = [] ∧ stored = v ∧ Value.update op entry value target = .ok v) ∨
    ∃ inner made, (entry.getD .null = .null ∧ inner = [] ∨ entry = some (.object inner)) ∧
      v = .object made ∧ write op value target path inner = .ok (stored, made) := by
  unfold writeEntry at h
  split at h
  · obtain ⟨updated, hupdated, h⟩ := (bind_ok_iff _ _ _).mp h
    cases h
    exact .inl ⟨rfl, rfl, hupdated⟩
  · dsimp only at h
    split at h
    next hnull =>
      rw [pure_bind] at h
      obtain ⟨⟨written, made⟩, hw, h⟩ := (bind_ok_iff _ _ _).mp h
      cases h
      exact .inr ⟨[], made, .inl ⟨hnull, rfl⟩, rfl, hw⟩
    next inner hobject =>
      rw [pure_bind] at h
      obtain ⟨⟨written, made⟩, hw, h⟩ := (bind_ok_iff _ _ _).mp h
      cases h
      have hentry : entry = some (.object inner) := by
        cases entry with
        | none => cases hobject
        | some w => exact congrArg some hobject
      exact .inr ⟨inner, made, .inr hentry, rfl, hw⟩
    · cases h

theorem write_grows (op : AssignOp) (value : Value) (target : String) (path : List String)
    (t : Knowledge) (stored : Value) (t' : Knowledge)
    (h : write op value target path t = .ok (stored, t')) : Table.Grows t t' := by
  cases path with
  | nil => cases h
  | cons key path =>
    obtain ⟨v, -, rfl⟩ := write_cons_ok h
    exact Table.grows_set _ _ _

end Knowledge

/-! ### Assignments -/

theorem Value.write_object {op : AssignOp} {value : Value} {target : String} {path : List String}
    {root stored root' : Value} (h : Value.write op value target path root = .ok (stored, root')) :
    ∃ t t', root = .object t ∧ root' = .object t' ∧
      Knowledge.write op value target path t = .ok (stored, t') := by
  unfold Value.write at h
  split at h
  · rename_i t
    obtain ⟨⟨stored, t'⟩, hw, h⟩ := (bind_ok_iff _ _ _).mp h
    cases h
    exact ⟨t, t', rfl, rfl, hw⟩
  all_goals cases h

/-- An assignment to knowledge is a write to an object, of the value itself or of its number. -/
theorem assignKnowledge_ok {target : Reference} {op : AssignOp} {value : Value} {c : Context σ}
    {o : Outcome σ} (h : assignKnowledge target op value c = .ok o) :
    ∃ assigned t t', c.knowledge = .object t ∧ o.context = { c with knowledge := .object t' } ∧
      Knowledge.write op assigned target.dotted target.path t = .ok (o.value, t') ∧
      (assigned = value ∨ value.coerce = .ok assigned) := by
  have hwritten : ∀ assigned : Value,
      (Value.write op assigned target.dotted target.path c.knowledge >>= fun written => do
        let _ ← assigned.inspect
        let _ ← written.1.inspect
        return ⟨written.1, { c with knowledge := written.2 }⟩) = .ok o →
      ∃ t t', c.knowledge = .object t ∧ o.context = { c with knowledge := .object t' } ∧
        Knowledge.write op assigned target.dotted target.path t = .ok (o.value, t') := by
    intro assigned h
    obtain ⟨⟨stored, knowledge⟩, hw, h⟩ := (bind_ok_iff _ _ _).mp h
    obtain ⟨_, _, h⟩ := (bind_ok_iff _ _ _).mp h
    obtain ⟨_, _, h⟩ := (bind_ok_iff _ _ _).mp h
    cases h
    obtain ⟨t, t', hc, hk, hw⟩ := Value.write_object hw
    exact ⟨t, t', hc, by rw [← hk], hw⟩
  unfold assignKnowledge at h
  dsimp only at h
  split at h
  next =>
    obtain ⟨assigned, hassigned, h⟩ := (bind_ok_iff _ _ _).mp h
    obtain ⟨t, t', hc, ho, hw⟩ := hwritten assigned h
    exact ⟨assigned, t, t', hc, ho, hw, .inr hassigned⟩
  next =>
    obtain ⟨assigned, hassigned, h⟩ := (bind_ok_iff _ _ _).mp h
    obtain rfl := Except.ok.inj hassigned
    obtain ⟨t, t', hc, ho, hw⟩ := hwritten value h
    exact ⟨value, t, t', hc, ho, hw, .inl rfl⟩

/-- An assignment to a variable sets an entry of the frame, as a write does under a key. -/
theorem assignVariable_ok {target : Reference} {op : AssignOp} {value : Value} {c : Context σ}
    {o : Outcome σ} (h : assignVariable target op value c = .ok o) :
    ∃ name path entry, target.path = name :: path ∧
      Knowledge.writeEntry op value target.dotted name path (c.frame.get? name) =
        .ok (o.value, entry) ∧
      o.context = { c with frame := c.frame.set name entry } := by
  unfold assignVariable at h
  split at h
  · cases h
  next name hpath =>
    obtain ⟨stored, hstored, h⟩ := (bind_ok_iff _ _ _).mp h
    cases h
    exact ⟨name, [], stored, hpath, by rw [Knowledge.writeEntry, hstored]; rfl, rfl⟩
  next name path hpath hne =>
    obtain ⟨key, path, rfl⟩ := List.exists_cons_of_ne_nil hpath
    dsimp only at h
    split at h
    next hnull =>
      rw [pure_bind] at h
      obtain ⟨⟨stored, root'⟩, hw, h⟩ := (bind_ok_iff _ _ _).mp h
      cases h
      refine ⟨name, key :: path, .object root', hne, ?_, rfl⟩
      simp only [Knowledge.writeEntry, hnull, pure_bind, hw]
      rfl
    next hobject =>
      rw [pure_bind] at h
      obtain ⟨⟨stored, root'⟩, hw, h⟩ := (bind_ok_iff _ _ _).mp h
      cases h
      refine ⟨name, key :: path, .object root', hne, ?_, rfl⟩
      simp only [Knowledge.writeEntry, hobject, pure_bind, hw]
      rfl
    · cases h

namespace Context

/-- Whether the knowledge of a context is an object. -/
def HoldsObject (c : Context σ) : Prop :=
  ∃ k, c.knowledge = .object k

/-- Whether the variables, and the keys of the knowledge if it is an object, are the first ones of
another context. -/
structure Grows (c c' : Context σ) : Prop where
  frame : c.frame.Grows c'.frame
  knowledge : ∀ k, c.knowledge = .object k → ∃ k', c'.knowledge = .object k' ∧ Table.Grows k k'

theorem Grows.holdsObject {c c' : Context σ} (h : c.Grows c') (hc : c.HoldsObject) :
    c'.HoldsObject := by
  obtain ⟨k, hk⟩ := hc
  obtain ⟨k', hk', _⟩ := h.knowledge k hk
  exact ⟨k', hk'⟩

theorem grows_keptBySteps : KeptBySteps (Grows (σ := σ)) fun _ => True where
  refl c := ⟨Table.grows_refl _, fun k hk => ⟨k, hk, Table.grows_refl k⟩⟩
  trans hab hbc := by
    refine ⟨Table.grows_trans hab.frame hbc.frame, fun k hk => ?_⟩
    obtain ⟨k', hk', hkk'⟩ := hab.knowledge k hk
    obtain ⟨k'', hk'', hk'k''⟩ := hbc.knowledge k' hk'
    exact ⟨k'', hk'', Table.grows_trans hkk' hk'k''⟩
  draw c draws := ⟨Table.grows_refl _, fun k hk => ⟨k, hk, Table.grows_refl k⟩⟩
  assign := by
    intro target op value c o _ h
    unfold assign at h
    split at h
    · obtain ⟨assigned, t, t', hc, ho, hw, -⟩ := assignKnowledge_ok h
      rw [ho]
      refine ⟨Table.grows_refl _, fun k hk => ⟨t', rfl, ?_⟩⟩
      rw [hc] at hk
      cases hk
      exact Knowledge.write_grows _ _ _ _ _ _ _ hw
    · obtain ⟨name, path, entry, -, -, ho⟩ := assignVariable_ok h
      rw [ho]
      exact ⟨Table.grows_set _ _ _, fun k hk => ⟨k, hk, Table.grows_refl k⟩⟩

end Context

/-! ### Closing a branch -/

theorem Outcome.close_of_grows (c : Context σ) (o : Outcome σ) (h : c.Grows o.context) :
    o.close c = o := by
  unfold Outcome.close
  rw [Table.merge_of_grows _ _ h.frame]

/-- Whether two expanders do the same from every context that holds an object. -/
structure Expander.Agrees (x y : Expander σ) : Prop where
  expand : ∀ r c, c.HoldsObject → x.expand r c = y.expand r c
  expandNamed : ∀ name c, c.HoldsObject → x.expandNamed name c = y.expandNamed name c

section

variable [DrawSource σ] {x y : Expander σ}

theorem thread_grows (hy : y.Keeps Context.Grows fun _ => True) {n : Node} {asBranch : Bool}
    {c : Context σ} {o : Outcome σ} (h : n.thread y asBranch c = .ok o) : c.Grows o.context :=
  thread_keeps Context.grows_keptBySteps hy n asBranch c o (fun _ _ => trivial) h

omit [DrawSource σ] in
theorem readRule_agrees (hxy : x.Agrees y) (name : String) (c : Context σ) (hc : c.HoldsObject) :
    readRule x name c = readRule y name c := by
  unfold readRule
  rw [hxy.expandNamed name c hc]

theorem readReference_agrees (hxy : x.Agrees y) (target : Reference) (c : Context σ)
    (hc : c.HoldsObject) : readReference x target c = readReference y target c := by
  unfold readReference
  split
  · rfl
  · rename_i name path _
    rw [hxy.expandNamed name c hc]

mutual

/-- A node evaluates with copied and merged frames as it does in one frame. -/
theorem evaluate_thread (hxy : x.Agrees y) (hy : y.Keeps Context.Grows fun _ => True) :
    (n : Node) → (asBranch : Bool) → (c : Context σ) → c.HoldsObject →
      n.evaluate x asBranch c = n.thread y asBranch c
  | .literal value, _, c, _ => rfl
  | .rule name, _, c, hc => readRule_agrees hxy name c hc
  | .reference target, _, c, hc => readReference_agrees hxy target c hc
  | .assign target op expression, _, c, hc => by
    simp only [Node.evaluate, Node.thread]
    rw [evaluate_thread hxy hy expression false c hc]
  | .binary left op right, _, c, hc => by
    simp only [Node.evaluate, Node.thread]
    rw [evaluate_thread hxy hy left false c hc]
    refine bind_congr_ok _ _ _ fun l hl => ?_
    have hlc := (thread_grows hy hl).holdsObject hc
    rw [evaluate_thread hxy hy right false l.context hlc]
    refine bind_congr_ok _ _ _ fun r hr => ?_
    rw [Outcome.close_of_grows _ _ (thread_grows hy hr)]
  | .conditional condition whenTrue whenFalse, _, c, hc => by
    simp only [Node.evaluate, Node.thread]
    rw [evaluate_thread hxy hy condition false c hc]
    refine bind_congr_ok _ _ _ fun test htest => ?_
    have htc := (thread_grows hy htest).holdsObject hc
    rw [evaluate_thread hxy hy whenTrue true test.context htc,
      evaluate_thread hxy hy whenFalse true test.context htc]
    -- closing the branch that is taken changes nothing, so only the last step is left out
    have hclose : ∀ branch : Node, (do
        let o ← branch.thread y true test.context
        pure (o.close test.context)) = branch.thread y true test.context := by
      intro branch
      cases hb : branch.thread y true test.context with
      | error fault => rfl
      | ok o => exact congrArg Except.ok (Outcome.close_of_grows _ _ (thread_grows hy hb))
    rw [hclose whenTrue, hclose whenFalse]
  | .silent expression, _, c, hc => by
    simp only [Node.evaluate, Node.thread]
    rw [evaluate_thread hxy hy expression false c hc]
  | .group members prose, asBranch, c, hc => by
    obtain ⟨k, hk⟩ := hc
    cases asBranch with
    | true =>
      simp only [Node.evaluate, Node.thread, hk, Value.toTable, ite_true]
      exact evaluateBranch_thread hxy hy members "" k c hk
    | false => exact evaluateList_thread hxy hy members (.text "") c ⟨k, hk⟩
  | .alternative ⟨elements, _⟩, _, c, hc => evaluateElements_thread hxy hy elements "" c hc
  | .definition r, _, c, hc => hxy.expand r c hc
  | .missing, _, c, _ => rfl

theorem evaluateElements_thread (hxy : x.Agrees y) (hy : y.Keeps Context.Grows fun _ => True) :
    (ns : List Node) → (output : String) → (c : Context σ) → c.HoldsObject →
      evaluateElements x ns output c = threadText y ns output c
  | [], output, c, _ => rfl
  | n :: rest, output, c, hc => by
    simp only [evaluateElements, threadText]
    rw [evaluate_thread hxy hy n false c hc]
    refine bind_congr_ok _ _ _ fun o ho => ?_
    have hgrows := thread_grows hy ho
    rw [Outcome.close_of_grows _ _ hgrows]
    refine bind_congr_ok _ _ _ fun output _ => ?_
    exact evaluateElements_thread hxy hy rest output o.context (hgrows.holdsObject hc)

theorem evaluateList_thread (hxy : x.Agrees y) (hy : y.Keeps Context.Grows fun _ => True) :
    (ns : List Node) → (last : Value) → (c : Context σ) → c.HoldsObject →
      evaluateList x ns last c = threadList y ns last c
  | [], last, c, _ => rfl
  | n :: rest, last, c, hc => by
    simp only [evaluateList, threadList]
    rw [evaluate_thread hxy hy n false c hc]
    refine bind_congr_ok _ _ _ fun o ho => ?_
    have hgrows := thread_grows hy ho
    rw [Outcome.close_of_grows _ _ hgrows]
    exact evaluateList_thread hxy hy rest o.value o.context (hgrows.holdsObject hc)

/-- The knowledge that is collected from the parts of a branch is always that of the last part. -/
theorem evaluateBranch_thread (hxy : x.Agrees y) (hy : y.Keeps Context.Grows fun _ => True) :
    (ns : List Node) → (output : String) → (k : Knowledge) → (c : Context σ) →
      c.knowledge = .object k → evaluateBranch x ns output k c = threadText y ns output c
  | [], output, k, c, hk => by
    simp only [evaluateBranch, threadText]
    rw [← hk]
  | n :: rest, output, k, c, hk => by
    simp only [evaluateBranch, threadText]
    rw [evaluate_thread hxy hy n false c ⟨k, hk⟩]
    refine bind_congr_ok _ _ _ fun o ho => ?_
    have hgrows := thread_grows hy ho
    rw [Outcome.close_of_grows _ _ hgrows]
    refine bind_congr_ok _ _ _ fun output _ => ?_
    obtain ⟨k', hk', hkk'⟩ := hgrows.knowledge k hk
    have htable : o.context.knowledge.toTable = .ok k' := by
      rw [hk']
      rfl
    rw [htable]
    have hmerge : Table.merge k k' = k' := Table.merge_of_grows k k' hkk'
    have hrest := evaluateBranch_thread hxy hy rest output k' o.context hk'
    simpa [bind, Except.bind, hmerge] using hrest

end

/-! ### Rules -/

omit [DrawSource σ] in
theorem Grammar.expanderBy_agrees (g : Grammar)
    (expand expand' : Rule → Context σ → Except Fault (Outcome σ))
    (h : ∀ r c, c.HoldsObject → expand r c = expand' r c) :
    (g.expanderBy expand).Agrees (g.expanderBy expand') where
  expand := h
  expandNamed := by
    intro name c hc
    simp only [Grammar.expanderBy]
    split
    · rfl
    · rw [h _ c hc]

theorem threader_grows (g : Grammar) (l : DepthLimit) (levels : Nat) :
    (g.threader l levels : Expander σ).Keeps Context.Grows fun _ => True :=
  g.threader_keeps Context.grows_keptBySteps (fun _ _ => trivial) l levels

/-- A rule expands with copied and merged frames as it does in one frame. -/
theorem expand_thread (g : Grammar) (l : DepthLimit) (levels : Nat) (r : Rule) (c : Context σ)
    (hc : c.HoldsObject) : r.expand g l levels c = r.thread g l levels c := by
  induction levels generalizing r c with
  | zero =>
    unfold Rule.expand Rule.thread
    rfl
  | succ levels ih =>
    unfold Rule.expand Rule.thread
    split
    · rfl
    · refine bind_congr_ok _ _ _ fun picked _ => ?_
      obtain ⟨alternative, draws⟩ := picked
      have hxy := g.expanderBy_agrees (fun rule c => rule.expand g l levels c)
        (fun rule c => rule.thread g l levels c) fun r c hc => ih r c hc
      have hy : (g.expanderBy fun rule c => rule.thread g l levels c : Expander σ).Keeps
          Context.Grows fun _ => True := threader_grows g l levels
      dsimp only
      rw [evaluateElements_thread hxy hy _ "" _ (by exact hc)]
      refine Eq.trans (bind_congr_ok _ _ pure fun o ho => ?_) (bind_pure _)
      have hgrows : { c with draws }.Grows o.context :=
        threadText_keeps Context.grows_keptBySteps hy _ "" _ o (fun _ _ => trivial) ho
      rw [Outcome.close_of_grows c o ⟨hgrows.frame, hgrows.knowledge⟩]

theorem expander_agrees (g : Grammar) (l : DepthLimit) (levels : Nat) :
    (g.expander l levels : Expander σ).Agrees (g.threader l levels) :=
  g.expanderBy_agrees _ _ fun r c hc => expand_thread g l levels r c hc

theorem Grammar.thread_of_run {g : Grammar} {l : DepthLimit} {c : Context σ} {o : Outcome σ}
    (hc : c.HoldsObject) (h : g.run l c = .ok o) :
    ∃ r, g.rule? "start" = some r ∧ r.thread g l l.levels c = .ok o := by
  unfold Grammar.run at h
  split at h
  next => cases h
  next r hr =>
    rw [expand_thread g l _ r c hc] at h
    exact ⟨r, hr, h⟩

theorem executeWith_object (g : Generator) (k : Knowledge) (seed : Value) (draws : σ) :
    g.executeWith (.object k) seed draws = (do
      let o ← g.grammar.run g.settings.depthLimit ⟨.object k, [], draws⟩
      let output ← if o.value.isNumber then Value.text <$> o.value.display else pure o.value
      let _ ← seed.inspect
      return ⟨output, o.context.knowledge⟩) := rfl

/-- In every grammar and under every depth limit, every node evaluates with copied and merged frames
exactly as in one threaded frame: to the same value, knowledge, variables and draws, or to the same
fault. -/
theorem evaluate_eq_thread (g : Grammar) (l : DepthLimit) (n : Node) (k : Knowledge)
    (frame : Table Value) (draws : σ) :
    n.evaluate (g.expander l l.levels) false ⟨.object k, frame, draws⟩ =
      n.thread (g.threader l l.levels) false ⟨.object k, frame, draws⟩ :=
  evaluate_thread (expander_agrees g l l.levels) (threader_grows g l l.levels) n false _ ⟨k, rfl⟩

end

end ProseGrammar
