import ProseGrammar.Proofs.Evaluation.Scopes
import ProseGrammar.Proofs.Foreseen

/-!
# Matching trees

Two trees match if they have the same form and hold the same literals, references and targets, all
of them within a vocabulary, but that the name of a rule in the first tree may stand as the name of
a variable in the second. Two evaluations of matching trees from related contexts go the same way,
step by step, if the relation is enough for draws and reads to give the same and if assignments lead
to related contexts again. They end in the same value and in related contexts, or both fail; or the
first one has reached a depth limit that the second one has not.
-/

namespace ProseGrammar

/-! ### Vocabularies -/

/-- What two trees that match may hold. -/
structure Vocabulary where
  /-- The values of literals, and those that evaluation makes of them. -/
  value : Value → Prop
  /-- The references that are read. The name of a rule is read like that of a variable, which would
  go before the rule. -/
  reads : Reference → Prop
  /-- The targets of assignments. -/
  writes : Reference → Prop
  rule : Rule → Prop
  /-- The names that may stand as those of rules first and as those of variables second. -/
  respells : String → Prop

mutual

inductive Node.Matches (v : Vocabulary) : Node → Node → Prop
  | literal {w : Value} (h : v.value w) : Node.Matches v (.literal w) (.literal w)
  | rule {name : String} (h : v.reads ⟨[name], false⟩) : Node.Matches v (.rule name) (.rule name)
  | respelled {name : String} (h : v.reads ⟨[name], false⟩) (hname : v.respells name) :
      Node.Matches v (.rule name) (.reference ⟨[name], false⟩)
  | reference {target : Reference} (h : v.reads target) :
      Node.Matches v (.reference target) (.reference target)
  | assign {target : Reference} {op : AssignOp} {e e' : Node} (h : v.writes target)
      (he : Node.Matches v e e') : Node.Matches v (.assign target op e) (.assign target op e')
  | binary {l l' r r' : Node} {op : BinaryOp} (hl : Node.Matches v l l')
      (hr : Node.Matches v r r') : Node.Matches v (.binary l op r) (.binary l' op r')
  | conditional {a a' b b' c c' : Node} (ha : Node.Matches v a a') (hb : Node.Matches v b b')
      (hc : Node.Matches v c c') : Node.Matches v (.conditional a b c) (.conditional a' b' c')
  | silent {e e' : Node} (he : Node.Matches v e e') : Node.Matches v (.silent e) (.silent e')
  | group {ns ns' : List Node} {prose : Bool} (h : NodesMatch v ns ns') :
      Node.Matches v (.group ns prose) (.group ns' prose)
  | alternative {a a' : Alternative} (h : Alternative.Matches v a a') :
      Node.Matches v (.alternative a) (.alternative a')
  | definition {r r' : Rule} (h : Rule.Matches v r r') :
      Node.Matches v (.definition r) (.definition r')
  | missing : Node.Matches v .missing .missing

inductive Alternative.Matches (v : Vocabulary) : Alternative → Alternative → Prop
  | mk {ns ns' : List Node} {weight : Value} (h : NodesMatch v ns ns') :
      Alternative.Matches v ⟨ns, weight⟩ ⟨ns', weight⟩

inductive Rule.Matches (v : Vocabulary) : Rule → Rule → Prop
  | mk {name : String} {as as' : List Alternative} (h : v.rule ⟨name, as⟩)
      (has : AlternativesMatch v as as') : Rule.Matches v ⟨name, as⟩ ⟨name, as'⟩

inductive NodesMatch (v : Vocabulary) : List Node → List Node → Prop
  | nil : NodesMatch v [] []
  | cons {n n' : Node} {ns ns' : List Node} (hn : Node.Matches v n n') (hns : NodesMatch v ns ns') :
      NodesMatch v (n :: ns) (n' :: ns')

inductive AlternativesMatch (v : Vocabulary) : List Alternative → List Alternative → Prop
  | nil : AlternativesMatch v [] []
  | cons {a a' : Alternative} {as as' : List Alternative} (ha : Alternative.Matches v a a')
      (has : AlternativesMatch v as as') : AlternativesMatch v (a :: as) (a' :: as')

end

/-- Two grammars match if each name that may be read stands for matching rules, or for none in
both. -/
def Grammar.Matches (v : Vocabulary) (g h : Grammar) : Prop :=
  ∀ name, v.reads ⟨[name], false⟩ → Option.Rel (Rule.Matches v) (g.rule? name) (h.rule? name)

variable {v : Vocabulary}

theorem Grammar.Matches.cases {v : Vocabulary} {g h : Grammar} (hgh : g.Matches v h) {name : String}
    (hname : v.reads ⟨[name], false⟩) : (g.rule? name = none ∧ h.rule? name = none) ∨
      ∃ r r', g.rule? name = some r ∧ h.rule? name = some r' ∧ r.Matches v r' := by
  have hrules := hgh name hname
  revert hrules
  generalize g.rule? name = r
  generalize h.rule? name = r'
  intro hrules
  cases hrules with
  | none => exact .inl ⟨rfl, rfl⟩
  | some hr => exact .inr ⟨_, _, rfl, rfl, hr⟩

theorem Node.Matches.isMissing {n n' : Node} (h : n.Matches v n') : n.isMissing = n'.isMissing := by
  cases h <;> rfl

theorem AlternativesMatch.isEmpty {as as' : List Alternative} (h : AlternativesMatch v as as') :
    as.isEmpty = as'.isEmpty := by
  cases h <;> rfl

theorem AlternativesMatch.weights {as as' : List Alternative} (h : AlternativesMatch v as as') :
    as.map Alternative.weight = as'.map Alternative.weight := by
  induction as generalizing as' with
  | nil =>
    cases h
    rfl
  | cons a as ih =>
    cases h with
    | cons ha has =>
      obtain ⟨_⟩ := ha
      rw [List.map_cons, List.map_cons, ih has]

theorem AlternativesMatch.getElem? {as as' : List Alternative} (h : AlternativesMatch v as as')
    (i : Nat) : Option.Rel (Alternative.Matches v) as[i]? as'[i]? := by
  induction as generalizing as' i with
  | nil =>
    cases h
    exact .none
  | cons a as ih =>
    cases h with
    | cons ha has =>
      cases i with
      | zero => exact .some ha
      | succ i => exact ih has i

variable {σ τ : Type}

theorem Rule.Matches.pick? [DrawSource σ] {r r' : Rule} (h : r.Matches v r') (draws : σ) :
    Paired (fun p q => Option.Rel (Alternative.Matches v) p.1 q.1 ∧ p.2 = q.2) Eq
      (r.pick? draws) (r'.pick? draws) := by
  obtain @⟨name, as, as', -, has⟩ := h
  have hdrawn : Paired (fun p q => Option.Rel (Alternative.Matches v) p.1 q.1 ∧ p.2 = q.2) Eq
      (Selection.weightedIndex .values (as.map Alternative.weight)
        (.float (DrawSource.draw draws).1) >>= fun index =>
          pure (as[index]?, (DrawSource.draw draws).2))
      (Selection.weightedIndex .values (as'.map Alternative.weight)
        (.float (DrawSource.draw draws).1) >>= fun index =>
          pure (as'[index]?, (DrawSource.draw draws).2)) := by
    rw [has.weights]
    exact paired_bind_same (fun _ => rfl) _ fun index => .ok ⟨has.getElem? index, rfl⟩
  cases has with
  | nil => exact hdrawn
  | cons ha has =>
    cases has with
    | nil => exact .ok ⟨.some ha, rfl⟩
    | cons hb has => exact hdrawn

/-! ### Steps -/

/-- Two outcomes have the same value, which a vocabulary has, and related contexts. -/
structure Outcome.Matches (v : Vocabulary) (C : Context σ → Context τ → Prop) (o : Outcome σ)
    (p : Outcome τ) : Prop where
  value : o.value = p.value
  allowed : v.value o.value
  context : C o.context p.context

/-- A relation between the contexts of two evaluations that fixes the frame and what is picked and
read, and that assignments keep. -/
structure Simulation [DrawSource σ] [DrawSource τ] (v : Vocabulary)
    (C : Context σ → Context τ → Prop) (F : Fault → Fault → Prop) : Prop where
  fault : ∀ f, F f f
  respelled : ∀ {name}, v.respells name →
    F (.evaluation (.undefined name) (some ("$" ++ name)))
      (.evaluation (.unresolved ("$" ++ name) (.undefined name)) (some ("$" ++ name)))
  text : ∀ s, v.value (.text s)
  operator : ∀ {op a b w}, BinaryOp.apply op a b = .ok w → v.value w
  frame : ∀ {c d}, C c d → c.frame = d.frame
  bound : ∀ {c d name path o}, C c d → readVariable name path c = .ok o → v.value o.value
  pick : ∀ {c d r}, C c d → v.rule r → Paired (fun p q => p.1 = q.1 ∧
    C { c with draws := p.2 } { d with draws := q.2 }) F (r.pick? c.draws) (r.pick? d.draws)
  read : ∀ {c d target}, C c d → v.reads target → target.isKnowledge = true →
    target.path ≠ [] → Paired (Outcome.Matches v C) F
      (blameReference target (readKnowledge target.path c))
      (blameReference target (readKnowledge target.path d))
  assign : ∀ {c d target op w}, C c d → v.writes target → v.value w →
    Paired (Outcome.Matches v C) F (assign target op w c) (assign target op w d)

/-- Two expanders that do matching rules side by side. -/
structure Expander.Matches (x : Expander σ) (y : Expander τ) (v : Vocabulary)
    (C : Context σ → Context τ → Prop) (E : Fault → Prop) (F : Fault → Fault → Prop) : Prop where
  expand : ∀ {r r' c d}, r.Matches v r' → C c d →
    PairedUnless E (Outcome.Matches v C) F (x.expand r c) (y.expand r' d)
  expandNamed : ∀ {name c d}, v.reads ⟨[name], false⟩ → C c d →
    PairedUnless E (Option.Rel (Outcome.Matches v C)) F (x.expandNamed name c) (y.expandNamed name d)

/-! ### Variables -/

theorem readRule_bound {x : Expander σ} {name : String} {c : Context σ} {w : Value}
    (h : c.frame.get? name = some w) : readRule x name c = readVariable name [] c := by
  rw [readRule, readVariable, h]
  rfl

theorem readVariable_frame (name : String) (path : List String) {c : Context σ} {d : Context τ}
    (h : c.frame = d.frame) :
    Paired (fun o p => o.value = p.value ∧ o.context = c ∧ p.context = d) Eq
      (readVariable name path c) (readVariable name path d) := by
  unfold readVariable
  rw [h]
  cases d.frame.get? name with
  | none => exact .error rfl
  | some value =>
    refine paired_bind_same (fun _ => rfl) (value.descend path) fun inner => ?_
    exact paired_bind_same (fun _ => rfl) inner.coerce fun _ => .ok ⟨rfl, rfl, rfl⟩

theorem blameReference_pairs {R : Outcome σ → Outcome τ → Prop} {F : Fault → Fault → Prop}
    (hF : ∀ f, F f f) (target : Reference) {r : Except Fault (Outcome σ)}
    {s : Except Fault (Outcome τ)} (h : Paired R Eq r s) :
    Paired R F (blameReference target r) (blameReference target s) := by
  cases h with
  | ok h => exact .ok h
  | @error fault _ h =>
    subst h
    cases fault <;> exact .error (hF _)

section

variable [DrawSource σ] [DrawSource τ] {C : Context σ → Context τ → Prop} {E : Fault → Prop}
  {F : Fault → Fault → Prop} {x : Expander σ} {y : Expander τ}

theorem readVariable_matches (S : Simulation v C F) (name : String) (path : List String)
    {c : Context σ} {d : Context τ} (h : C c d) :
    Paired (Outcome.Matches v C) Eq (readVariable name path c) (readVariable name path d) := by
  refine paired_mono_ok (readVariable_frame name path (S.frame h)) fun o p ho hop => ?_
  obtain ⟨hvalue, hc, hd⟩ := hop
  exact ⟨hvalue, S.bound h ho, by rw [hc, hd]; exact h⟩

omit [DrawSource τ] in
/-- The value of a variable is no evaluation that fails, so no reference is blamed. -/
theorem blameReference_bound {name : String} {d : Context τ} {w : Value}
    (h : d.frame.get? name = some w) (target : Reference) :
    blameReference target (readVariable name [] d) = readVariable name [] d := by
  have hread : readVariable name [] d = (do return ⟨← w.coerce, d⟩) := by
    rw [readVariable, h]
    rfl
  rw [hread]
  cases hw : w.coerce with
  | ok u => rfl
  | error fault =>
    have hdigits : FailsIn (fun fault => ∃ digits, fault = .integerText digits) w.coerce :=
      w.failsIn_coerce fun digits => ⟨digits, rfl⟩
    obtain ⟨digits, rfl⟩ := hdigits fault hw
    rfl

/-! ### References -/

theorem readRule_matches (S : Simulation v C F) (hxy : x.Matches y v C E F) (name : String)
    {c : Context σ} {d : Context τ} (h : C c d) (hname : v.reads ⟨[name], false⟩) :
    PairedUnless E (Outcome.Matches v C) F (readRule x name c) (readRule y name d) := by
  cases hw : d.frame.get? name with
  | some w =>
    rw [readRule_bound (S.frame h ▸ hw), readRule_bound hw]
    exact (paired_of_same_faults S.fault (readVariable_matches S name [] h)).unless
  | none =>
    unfold readRule
    rw [S.frame h, hw]
    refine unless_bind (hxy.expandNamed hname h) fun o p hop => ?_
    cases hop with
    | none => exact .inr (.error (S.fault _))
    | some hop => exact .inr (.ok hop)

/-- A name is looked up among the variables first and among the rules second, whichever of the two
it stands for. -/
theorem readRule_respelled (S : Simulation v C F) (hxy : x.Matches y v C E F) (name : String)
    {c : Context σ} {d : Context τ} (h : C c d) (hname : v.reads ⟨[name], false⟩)
    (hrespelled : v.respells name) :
    PairedUnless E (Outcome.Matches v C) F (readRule x name c)
      (readReference y ⟨[name], false⟩ d) := by
  cases hw : d.frame.get? name with
  | some w =>
    have hhas : d.frame.has name = true := by
      rw [Table.has, hw]
      rfl
    have hread : readReference y ⟨[name], false⟩ d = readVariable name [] d := by
      simp only [readReference, hhas]
      exact blameReference_bound hw _
    rw [readRule_bound (S.frame h ▸ hw), hread]
    exact (paired_of_same_faults S.fault (readVariable_matches S name [] h)).unless
  | none =>
    have hhas : d.frame.has name = false := by
      rw [Table.has, hw]
      rfl
    have hread : readVariable name [] d = .error (.evaluation (.undefined name) none) := by
      rw [readVariable, hw]
      rfl
    simp only [readRule, readReference, S.frame h, hw, hhas, hread]
    refine unless_bind (hxy.expandNamed hname h) fun o p hop => ?_
    cases hop with
    | none => exact .inr (.error (S.respelled hrespelled))
    | some hop => exact .inr (.ok hop)

theorem readReference_matches (S : Simulation v C F) (hxy : x.Matches y v C E F)
    (target : Reference) {c : Context σ} {d : Context τ} (h : C c d) (ht : v.reads target) :
    PairedUnless E (Outcome.Matches v C) F (readReference x target c) (readReference y target d) := by
  obtain ⟨path, isKnowledge⟩ := target
  cases path with
  | nil => exact .inr (.error (S.fault _))
  | cons name path =>
    cases isKnowledge with
    | true => exact (S.read h ht rfl (List.cons_ne_nil name path)).unless
    | false =>
      have hvariable := (blameReference_pairs S.fault ⟨name :: path, false⟩
        (readVariable_matches S name path h)).unless (E := E)
      simp only [readReference, S.frame h]
      cases hlone : path.isEmpty && !d.frame.has name with
      | false => exact hvariable
      | true =>
        simp only [Bool.and_eq_true, List.isEmpty_iff] at hlone
        obtain ⟨rfl, -⟩ := hlone
        refine unless_bind (hxy.expandNamed ht h) fun o p hop => ?_
        cases hop with
        | none => exact hvariable
        | some hop => exact .inr (.ok hop)

/-! ### Nodes -/

mutual

/-- Evaluations of matching nodes from related contexts go the same way. -/
theorem thread_matches (S : Simulation v C F) (hxy : x.Matches y v C E F) (n n' : Node)
    (asBranch : Bool) (c : Context σ) (d : Context τ) (hn : n.Matches v n') (h : C c d) :
    PairedUnless E (Outcome.Matches v C) F (n.thread x asBranch c) (n'.thread y asBranch d) := by
  cases n with
  | literal w =>
    cases hn with
    | literal hw => exact .inr (.ok ⟨rfl, hw, h⟩)
  -- only the name of a rule may be spelt in two ways
  | rule name =>
    cases hn with
    | rule hname => exact readRule_matches S hxy name h hname
    | respelled hname hrespelled => exact readRule_respelled S hxy name h hname hrespelled
  | reference target =>
    cases hn with
    | reference ht => exact readReference_matches S hxy target h ht
  | assign target op e =>
    cases hn with
    | assign ht he =>
      refine unless_bind (thread_matches S hxy e _ false c d he h) fun o p hop => ?_
      rw [← hop.value]
      exact (S.assign hop.context ht hop.allowed).unless
  | binary l op r =>
    cases hn with
    | binary hl hr =>
      refine unless_bind (thread_matches S hxy l _ false c d hl h) fun o p hop => ?_
      refine unless_bind (thread_matches S hxy r _ false _ _ hr hop.context) fun o' p' hop' => ?_
      rw [hop.value, hop'.value]
      exact unless_bind_same S.fault _ fun w hw => .inr (.ok ⟨rfl, S.operator hw, hop'.context⟩)
  | conditional a b e =>
    cases hn with
    | conditional ha hb he =>
      refine unless_bind (thread_matches S hxy a _ false c d ha h) fun o p hop => ?_
      rw [hop.value, he.isMissing]
      split
      · exact thread_matches S hxy b _ true _ _ hb hop.context
      · split
        · exact .inr (.ok ⟨rfl, S.text "", hop.context⟩)
        · exact thread_matches S hxy e _ true _ _ he hop.context
  | silent e =>
    cases hn with
    | silent he =>
      refine unless_bind (thread_matches S hxy e _ false c d he h) fun o p hop => ?_
      exact .inr (.ok ⟨rfl, S.text "", hop.context⟩)
  | group ns prose =>
    cases hn with
    | group hns =>
      cases asBranch with
      | true => exact threadText_matches S hxy ns _ "" c d hns h
      | false => exact threadList_matches S hxy ns _ (.text "") c d hns (S.text "") h
  | alternative a =>
    obtain ⟨ns, weight⟩ := a
    cases hn with
    | alternative ha =>
      cases ha with
      | mk hns => exact threadText_matches S hxy ns _ "" c d hns h
  | definition r =>
    cases hn with
    | definition hr => exact hxy.expand hr h
  | missing =>
    cases hn with
    | missing => exact .inr (.error (S.fault _))

theorem threadText_matches (S : Simulation v C F) (hxy : x.Matches y v C E F)
    (ns ns' : List Node) (output : String) (c : Context σ) (d : Context τ)
    (hns : NodesMatch v ns ns') (h : C c d) :
    PairedUnless E (Outcome.Matches v C) F (threadText x ns output c) (threadText y ns' output d) := by
  cases ns with
  | nil =>
    cases hns with
    | nil => exact .inr (.ok ⟨rfl, S.text output, h⟩)
  | cons n ns =>
    cases hns with
    | cons hn hns =>
      refine unless_bind (thread_matches S hxy n _ false c d hn h) fun o p hop => ?_
      rw [hop.value]
      refine unless_bind_same S.fault _ fun output _ => ?_
      exact threadText_matches S hxy ns _ output _ _ hns hop.context

theorem threadList_matches (S : Simulation v C F) (hxy : x.Matches y v C E F)
    (ns ns' : List Node) (last : Value) (c : Context σ) (d : Context τ)
    (hns : NodesMatch v ns ns') (hlast : v.value last) (h : C c d) :
    PairedUnless E (Outcome.Matches v C) F (threadList x ns last c) (threadList y ns' last d) := by
  cases ns with
  | nil =>
    cases hns with
    | nil => exact .inr (.ok ⟨rfl, hlast, h⟩)
  | cons n ns =>
    cases hns with
    | cons hn hns =>
      refine unless_bind (thread_matches S hxy n _ false c d hn h) fun o p hop => ?_
      rw [← hop.value]
      exact threadList_matches S hxy ns _ o.value _ _ hns hop.allowed hop.context

end

/-! ### Rules -/

theorem Value.trimmed_allowed (S : Simulation v C F) {w : Value} (h : v.value w) :
    v.value w.trimmed := by
  cases w with
  | text s => exact S.text _
  | _ => exact h

/-- Expanders by name do matching grammars side by side if they do so with matching rules. -/
theorem Grammar.Matches.expanderBy (S : Simulation v C F) {g h : Grammar} (hgh : g.Matches v h)
    (expand : Rule → Context σ → Except Fault (Outcome σ))
    (expand' : Rule → Context τ → Except Fault (Outcome τ))
    (hexpand : ∀ {r r' c d}, r.Matches v r' → C c d →
      PairedUnless E (Outcome.Matches v C) F (expand r c) (expand' r' d)) :
    (g.expanderBy expand).Matches (h.expanderBy expand') v C E F where
  expand := hexpand
  expandNamed := by
    intro name c d hname hcd
    simp only [Grammar.expanderBy]
    rcases hgh.cases hname with ⟨hnone, hnone'⟩ | ⟨r, r', hr, hr', hrr'⟩
    · rw [hnone, hnone']
      exact .inr (.ok .none)
    · rw [hr, hr']
      refine unless_bind (hexpand hrr' hcd) fun o p hop => ?_
      exact .inr (.ok (.some ⟨congrArg Value.trimmed hop.value,
        Value.trimmed_allowed S hop.allowed, hop.context⟩))

/-- Matching rules of matching grammars expand side by side from related contexts, by induction on
the levels left. The second limit may leave more of them; then the first fault of the first limit
ends the comparison. -/
theorem Rule.thread_matches (S : Simulation v C F) {g h : Grammar} (hgh : g.Matches v h)
    (l l' : DepthLimit) (more : Nat)
    (hmore : (∀ name, E (l.fault name)) ∨ (l' = l ∧ more = 0)) (levels : Nat) {r r' : Rule}
    {c : Context σ} {d : Context τ} (hr : r.Matches v r') (hcd : C c d) :
    PairedUnless E (Outcome.Matches v C) F (r.thread g l levels c)
      (r'.thread h l' (levels + more) d) := by
  induction levels generalizing r r' c d with
  | zero =>
    obtain @⟨name, as, as', -, has⟩ := hr
    unfold Rule.thread
    rw [← has.isEmpty]
    split
    · exact .inr (.error (S.fault _))
    -- the first limit is reached: its fault is excused, or the second limit is the same
    · rcases hmore with hE | ⟨rfl, rfl⟩
      · exact .inl ⟨_, hE _, rfl⟩
      · exact .inr (.error (S.fault _))
  | succ levels ih =>
    have hpick : Paired (fun p q => Option.Rel (Alternative.Matches v) p.1 q.1 ∧
        C { c with draws := p.2 } { d with draws := q.2 }) F (r.pick? c.draws) (r'.pick? d.draws) := by
      have hrule : v.rule r := by cases hr; assumption
      refine paired_mono (paired_trans (S.pick hcd hrule) (hr.pick? d.draws)) fun p q hpq => ?_
      obtain ⟨between, ⟨hfirst, hnext⟩, halternative, hdraws⟩ := hpq
      exact ⟨hfirst ▸ halternative, hdraws ▸ hnext⟩
    obtain @⟨name, as, as', -, has⟩ := hr
    rw [Nat.succ_add]
    unfold Rule.thread
    rw [← has.isEmpty]
    split
    · exact .inr (.error (S.fault _))
    have hxy := hgh.expanderBy S (fun rule c => rule.thread g l levels c)
      (fun rule d => rule.thread h l' (levels + more) d) fun hr hcd => ih hr hcd
    refine unless_bind hpick.unless fun p q hpq => ?_
    obtain ⟨alternative, draws⟩ := p
    obtain ⟨alternative', draws'⟩ := q
    obtain ⟨hpicked, hnext⟩ := hpq
    cases hpicked with
    | none => exact threadText_matches S hxy [] [] "" _ _ .nil hnext
    | some ha =>
      obtain ⟨hns⟩ := ha
      exact threadText_matches S hxy _ _ "" _ _ hns hnext

/-! ### Executions -/

/-- Runs of matching grammars from related contexts that hold objects go the same way, if the second
limit leaves as many levels or more. -/
theorem Grammar.run_matches_raised (S : Simulation v C F) {g h : Grammar} (hgh : g.Matches v h)
    (hstart : v.reads ⟨["start"], false⟩) {l l' : DepthLimit} {more : Nat}
    (hlevels : l'.levels = l.levels + more)
    (hmore : (∀ name, E (l.fault name)) ∨ (l' = l ∧ more = 0)) {c : Context σ} {d : Context τ}
    (hc : c.HoldsObject) (hd : d.HoldsObject) (hcd : C c d) :
    PairedUnless E (Outcome.Matches v C) F (g.run l c) (h.run l' d) := by
  unfold Grammar.run
  rcases hgh.cases hstart with ⟨hnone, hnone'⟩ | ⟨r, r', hr, hr', hrr'⟩
  · rw [hnone, hnone']
    exact .inr (.error (S.fault _))
  · rw [hr, hr']
    dsimp only
    rw [expand_thread g l _ r c hc, expand_thread h l' _ r' d hd, hlevels]
    exact Rule.thread_matches S hgh l l' more hmore _ hrr' hcd

theorem Grammar.run_matches (S : Simulation v C F) {g h : Grammar} (hgh : g.Matches v h)
    (hstart : v.reads ⟨["start"], false⟩) (l : DepthLimit) {c : Context σ} {d : Context τ}
    (hc : c.HoldsObject) (hd : d.HoldsObject) (hcd : C c d) :
    Paired (Outcome.Matches v C) F (g.run l c) (h.run l d) := by
  have hrun : PairedUnless (fun _ => False) (Outcome.Matches v C) F (g.run l c) (h.run l d) :=
    Grammar.run_matches_raised S hgh hstart rfl (.inr ⟨rfl, rfl⟩) hc hd hcd
  exact paired_of_unless hrun nofun

/-- Executions of matching grammars on the same knowledge, from draws that are related where nothing
else is there yet, give the same or fail in related ways. -/
theorem executeWith_matches_raised (S : Simulation v C F) {g h : Grammar} (hgh : g.Matches v h)
    (hstart : v.reads ⟨["start"], false⟩) {l l' : DepthLimit} {more : Nat}
    (hlevels : l'.levels = l.levels + more)
    (hmore : (∀ name, E (l.fault name)) ∨ (l' = l ∧ more = 0))
    (hsame : ∀ {c d}, C c d → c.knowledge = d.knowledge) (knowledge : Value) (draws : σ)
    (draws' : τ) (hcd : ∀ k, Generator.knowledgeOf knowledge = .ok (.object k) →
      C ⟨.object k, [], draws⟩ ⟨.object k, [], draws'⟩) (default seed : Value) :
    PairedUnless E Eq F ((Generator.mk g ⟨l, default⟩).executeWith knowledge seed draws)
      ((Generator.mk h ⟨l', default⟩).executeWith knowledge seed draws') := by
  have hobject : ∀ k : Knowledge, C ⟨.object k, [], draws⟩ ⟨.object k, [], draws'⟩ →
      PairedUnless E Eq F ((Generator.mk g ⟨l, default⟩).executeWith (.object k) seed draws)
        ((Generator.mk h ⟨l', default⟩).executeWith (.object k) seed draws') := by
    intro k hk
    rw [executeWith_object, executeWith_object]
    refine unless_bind (Grammar.run_matches_raised S hgh hstart hlevels hmore ⟨k, rfl⟩ ⟨k, rfl⟩ hk)
      fun o p hop => ?_
    rw [hop.value, hsame hop.context]
    exact (paired_refl S.fault _).unless
  cases knowledge with
  | null => exact hobject [] (hcd [] rfl)
  | object k => exact hobject k (hcd k rfl)
  | _ => exact .inr (.error (S.fault _))

theorem executeWith_matches (S : Simulation v C F) {g h : Grammar} (hgh : g.Matches v h)
    (hstart : v.reads ⟨["start"], false⟩) (hsame : ∀ {c d}, C c d → c.knowledge = d.knowledge)
    (settings : Settings) (knowledge : Value) (draws : σ) (draws' : τ)
    (hcd : ∀ k, Generator.knowledgeOf knowledge = .ok (.object k) →
      C ⟨.object k, [], draws⟩ ⟨.object k, [], draws'⟩) (seed : Value) :
    Paired Eq F ((Generator.mk g settings).executeWith knowledge seed draws)
      ((Generator.mk h settings).executeWith knowledge seed draws') := by
  have hexecute : PairedUnless (fun _ => False) Eq F
      ((Generator.mk g settings).executeWith knowledge seed draws)
      ((Generator.mk h settings).executeWith knowledge seed draws') :=
    executeWith_matches_raised S hgh hstart rfl (.inr ⟨rfl, rfl⟩) hsame knowledge draws draws' hcd
      settings.defaultSeed seed
  exact paired_of_unless hexecute nofun

end

end ProseGrammar
