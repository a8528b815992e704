import ProseGrammar.Proofs.Evaluation.Threaded
import ProseGrammar.Proofs.Growth
import ProseGrammar.Proofs.Results

/-!
# What an evaluation keeps

A relation between the context before and the context after that holds of every draw and of every
assignment, and that can be composed, holds of every evaluation. Which assignments have to keep it
is a matter of their targets, so a relation can depend on the targets that occur in a grammar.
-/

namespace ProseGrammar

variable {σ : Type}

/-! ### Assignment targets -/

mutual

/-- The targets of the assignments that occur in a node. -/
def Node.targets : Node → List Reference
  | .literal _ => []
  | .rule _ => []
  | .reference _ => []
  | .assign target _ expression => target :: expression.targets
  | .binary left _ right => left.targets ++ right.targets
  | .conditional condition whenTrue whenFalse =>
    condition.targets ++ whenTrue.targets ++ whenFalse.targets
  | .silent expression => expression.targets
  | .group members _ => nodeTargets members
  | .alternative a => a.targets
  | .definition r => r.targets
  | .missing => []

def Alternative.targets : Alternative → List Reference
  | ⟨elements, _⟩ => nodeTargets elements

def Rule.targets : Rule → List Reference
  | ⟨_, alternatives⟩ => alternativeTargets alternatives

def nodeTargets : List Node → List Reference
  | [] => []
  | n :: rest => n.targets ++ nodeTargets rest

def alternativeTargets : List Alternative → List Reference
  | [] => []
  | a :: rest => a.targets ++ alternativeTargets rest

end

/-- The targets of the assignments that occur in the rules of a grammar. -/
def Grammar.targets (g : Grammar) : List Reference :=
  g.rules.flatMap fun entry => entry.2.targets

theorem targets_of_alternative {alternatives : List Alternative} {a : Alternative}
    (ha : a ∈ alternatives) : ∀ t ∈ nodeTargets a.elements, t ∈ alternativeTargets alternatives := by
  induction alternatives with
  | nil => simp at ha
  | cons b rest ih =>
    intro t ht
    simp only [alternativeTargets, List.mem_append]
    rcases List.mem_cons.mp ha with rfl | hr
    · obtain ⟨elements, weight⟩ := a
      exact Or.inl ht
    · exact Or.inr (ih hr t ht)

theorem Grammar.targets_of_rule? {g : Grammar} {name : String} {r : Rule}
    (h : g.rule? name = some r) : ∀ t ∈ r.targets, t ∈ g.targets := by
  intro t ht
  exact List.mem_flatMap.mpr ⟨(name, r), Table.mem_of_get? h, ht⟩

/-! ### References -/

theorem selectItem_context [DrawSource σ] {items : List Value} {c : Context σ} {o : Outcome σ}
    (h : selectItem items c = .ok o) : ∃ draws, o.context = { c with draws } := by
  unfold selectItem at h
  split at h
  · cases h
    exact ⟨c.draws, rfl⟩
  · dsimp only at h
    split at h <;>
    · obtain ⟨index, _, h⟩ := (bind_ok_iff _ _ _).mp h
      split at h
      · cases h
        exact ⟨_, rfl⟩
      · cases h

theorem readKnowledge_context [DrawSource σ] {path : List String} {c : Context σ} {o : Outcome σ}
    (h : readKnowledge path c = .ok o) : ∃ draws, o.context = { c with draws } := by
  unfold readKnowledge at h
  split at h
  · cases h
  · exact selectItem_context h
  · cases h
    exact ⟨c.draws, rfl⟩

theorem readVariable_context {name : String} {path : List String} {c : Context σ} {o : Outcome σ}
    (h : readVariable name path c = .ok o) : o.context = c := by
  unfold readVariable at h
  split at h
  · cases h
  · obtain ⟨value, _, h⟩ := (bind_ok_iff _ _ _).mp h
    obtain ⟨number, _, h⟩ := (bind_ok_iff _ _ _).mp h
    cases h
    rfl

theorem blameReference_ok {target : Reference} {result : Except Fault (Outcome σ)} {o : Outcome σ}
    (h : blameReference target result = .ok o) : result = .ok o := by
  unfold blameReference at h
  split at h
  · cases h
  · exact h

/-- A reference changes only the draws, unless it is the name of a rule. -/
theorem readReference_context [DrawSource σ] {x : Expander σ} {target : Reference} {c : Context σ}
    {o : Outcome σ} (h : readReference x target c = .ok o) :
    (∃ draws, o.context = { c with draws }) ∨ ∃ name, x.expandNamed name c = .ok (some o) := by
  unfold readReference at h
  split at h
  · cases h
  · rename_i name path _
    split at h
    · exact Or.inl (readKnowledge_context (blameReference_ok h))
    · dsimp only at h
      split at h
      · obtain ⟨expanded, he, h⟩ := (bind_ok_iff _ _ _).mp h
        cases expanded with
        | some outcome =>
          cases h
          exact Or.inr ⟨name, he⟩
        | none =>
          have hc := readVariable_context (blameReference_ok h)
          exact Or.inl ⟨c.draws, by rw [hc]⟩
      · have hc := readVariable_context (blameReference_ok h)
        exact Or.inl ⟨c.draws, by rw [hc]⟩

theorem readRule_context {x : Expander σ} {name : String} {c : Context σ} {o : Outcome σ}
    (h : readRule x name c = .ok o) : o.context = c ∨ x.expandNamed name c = .ok (some o) := by
  unfold readRule at h
  split at h
  · obtain ⟨value, _, h⟩ := (bind_ok_iff _ _ _).mp h
    cases h
    exact Or.inl rfl
  · obtain ⟨expanded, he, h⟩ := (bind_ok_iff _ _ _).mp h
    cases expanded with
    | some outcome =>
      cases h
      exact Or.inr he
    | none => cases h

/-! ### Steps and evaluations -/

/-- A relation between contexts that draws and assignments to allowed targets keep, and that can be
composed. -/
structure KeptBySteps (R : Context σ → Context σ → Prop) (allowed : Reference → Prop) : Prop where
  refl : ∀ c, R c c
  trans : ∀ {a b c}, R a b → R b c → R a c
  draw : ∀ c draws, R c { c with draws }
  assign : ∀ {target op value c o}, allowed target → assign target op value c = .ok o →
    R c o.context

/-- An expander that keeps a relation. -/
structure Expander.Keeps (x : Expander σ) (R : Context σ → Context σ → Prop)
    (allowed : Reference → Prop) : Prop where
  expand : ∀ {r c o}, (∀ t ∈ r.targets, allowed t) → x.expand r c = .ok o → R c o.context
  expandNamed : ∀ {name c o}, x.expandNamed name c = .ok (some o) → R c o.context

section

variable [DrawSource σ] {R : Context σ → Context σ → Prop} {allowed : Reference → Prop}
  {x : Expander σ}

theorem readReference_keeps (hR : KeptBySteps R allowed) (hx : x.Keeps R allowed)
    {target : Reference} {c : Context σ} {o : Outcome σ} (h : readReference x target c = .ok o) :
    R c o.context := by
  rcases readReference_context h with ⟨draws, hd⟩ | ⟨name, hn⟩
  · rw [hd]
    exact hR.draw c draws
  · exact hx.expandNamed hn

omit [DrawSource σ] in
theorem readRule_keeps (hR : KeptBySteps R allowed) (hx : x.Keeps R allowed) {name : String}
    {c : Context σ} {o : Outcome σ} (h : readRule x name c = .ok o) : R c o.context := by
  rcases readRule_context h with hc | hn
  · rw [hc]
    exact hR.refl c
  · exact hx.expandNamed hn

mutual

theorem thread_keeps (hR : KeptBySteps R allowed) (hx : x.Keeps R allowed) :
    (n : Node) → (asBranch : Bool) → (c : Context σ) → (o : Outcome σ) →
      (∀ t ∈ n.targets, allowed t) → n.thread x asBranch c = .ok o → R c o.context
  | .literal value, _, c, o, _, h => by
    cases h
    exact hR.refl c
  | .rule name, _, c, o, _, h => readRule_keeps hR hx h
  | .reference target, _, c, o, _, h => readReference_keeps hR hx h
  | .assign target op expression, _, c, o, ht, h => by
    obtain ⟨e, he, ho⟩ := (bind_ok_iff _ _ _).mp h
    have hexpression := thread_keeps hR hx expression false c e
      (fun t hm => ht t (List.mem_cons_of_mem _ hm)) he
    exact hR.trans hexpression (hR.assign (ht target List.mem_cons_self) ho)
  | .binary left op right, _, c, o, ht, h => by
    obtain ⟨l, hl, h⟩ := (bind_ok_iff _ _ _).mp h
    obtain ⟨r, hr, h⟩ := (bind_ok_iff _ _ _).mp h
    obtain ⟨value, _, h⟩ := (bind_ok_iff _ _ _).mp h
    cases h
    have hleft := thread_keeps hR hx left false c l
      (fun t hm => ht t (List.mem_append_left _ hm)) hl
    have hright := thread_keeps hR hx right false l.context r
      (fun t hm => ht t (List.mem_append_right _ hm)) hr
    exact hR.trans hleft hright
  | .conditional condition whenTrue whenFalse, _, c, o, ht, h => by
    simp only [Node.targets, List.mem_append] at ht
    obtain ⟨test, htest, h⟩ := (bind_ok_iff _ _ _).mp h
    have hcondition := thread_keeps hR hx condition false c test
      (fun t hm => ht t (Or.inl (Or.inl hm))) htest
    split at h
    · exact hR.trans hcondition (thread_keeps hR hx whenTrue true test.context o
        (fun t hm => ht t (Or.inl (Or.inr hm))) h)
    · split at h
      · cases h
        exact hcondition
      · exact hR.trans hcondition (thread_keeps hR hx whenFalse true test.context o
          (fun t hm => ht t (Or.inr hm)) h)
  | .silent expression, _, c, o, ht, h => by
    obtain ⟨e, he, h⟩ := (bind_ok_iff _ _ _).mp h
    cases h
    exact thread_keeps hR hx expression false c e ht he
  | .group members prose, asBranch, c, o, ht, h => by
    cases asBranch with
    | true => exact threadText_keeps hR hx members "" c o ht h
    | false => exact threadList_keeps hR hx members (.text "") c o ht h
  | .alternative ⟨elements, _⟩, _, c, o, ht, h => threadText_keeps hR hx elements "" c o ht h
  | .definition r, _, c, o, ht, h => hx.expand ht h
  | .missing, _, c, o, _, h => by cases h

theorem threadText_keeps (hR : KeptBySteps R allowed) (hx : x.Keeps R allowed) :
    (ns : List Node) → (output : String) → (c : Context σ) → (o : Outcome σ) →
      (∀ t ∈ nodeTargets ns, allowed t) → threadText x ns output c = .ok o → R c o.context
  | [], output, c, o, _, h => by
    cases h
    exact hR.refl c
  | n :: rest, output, c, o, ht, h => by
    obtain ⟨first, hfirst, h⟩ := (bind_ok_iff _ _ _).mp h
    obtain ⟨output, _, h⟩ := (bind_ok_iff _ _ _).mp h
    have hn := thread_keeps hR hx n false c first
      (fun t hm => ht t (List.mem_append_left _ hm)) hfirst
    exact hR.trans hn (threadText_keeps hR hx rest output first.context o
      (fun t hm => ht t (List.mem_append_right _ hm)) h)

theorem threadList_keeps (hR : KeptBySteps R allowed) (hx : x.Keeps R allowed) :
    (ns : List Node) → (last : Value) → (c : Context σ) → (o : Outcome σ) →
      (∀ t ∈ nodeTargets ns, allowed t) → threadList x ns last c = .ok o → R c o.context
  | [], last, c, o, _, h => by
    cases h
    exact hR.refl c
  | n :: rest, last, c, o, ht, h => by
    obtain ⟨first, hfirst, h⟩ := (bind_ok_iff _ _ _).mp h
    have hn := thread_keeps hR hx n false c first
      (fun t hm => ht t (List.mem_append_left _ hm)) hfirst
    exact hR.trans hn (threadList_keeps hR hx rest first.value first.context o
      (fun t hm => ht t (List.mem_append_right _ hm)) h)

end

/-! ### Rules -/

/-- The alternative that is picked is one of the rule, and nothing but draws is used up. -/
theorem Rule.elements_of_pick? {r : Rule} {draws draws' : σ} {a : Option Alternative}
    (h : r.pick? draws = .ok (a, draws')) : ∀ b, a = some b → b ∈ r.alternatives := by
  intro b hb
  subst hb
  unfold Rule.pick? at h
  split at h
  · rename_i only hs
    cases h
    simp [hs]
  · obtain ⟨index, _, h⟩ := (bind_ok_iff _ _ _).mp h
    have he : r.alternatives[index]? = some b := by
      injection h with h
      exact congrArg Prod.fst h
    exact List.mem_of_getElem? he

omit [DrawSource σ] in
theorem Grammar.expanderBy_keeps (g : Grammar)
    (expand : Rule → Context σ → Except Fault (Outcome σ))
    (h : ∀ {r c o}, (∀ t ∈ r.targets, allowed t) → expand r c = .ok o → R c o.context)
    (hg : ∀ t ∈ g.targets, allowed t) : (g.expanderBy expand).Keeps R allowed where
  expand := h
  expandNamed := by
    intro name c o ho
    simp only [Grammar.expanderBy] at ho
    split at ho
    · cases ho
    · rename_i r hr
      obtain ⟨inner, hi, ho⟩ := (bind_ok_iff _ _ _).mp ho
      cases ho
      have hk : R c inner.context := h (fun t ht => hg t (Grammar.targets_of_rule? hr t ht)) hi
      exact hk

/-- What every step keeps, the expansion of a rule keeps, by induction on the levels left. -/
theorem Rule.thread_keeps (hR : KeptBySteps R allowed) (g : Grammar)
    (hg : ∀ t ∈ g.targets, allowed t) (l : DepthLimit) (levels : Nat) {r : Rule} {c : Context σ}
    {o : Outcome σ} (hr : ∀ t ∈ r.targets, allowed t) (h : r.thread g l levels c = .ok o) :
    R c o.context := by
  induction levels generalizing r c o with
  | zero =>
    unfold Rule.thread at h
    split at h <;> cases h
  | succ levels ih =>
    unfold Rule.thread at h
    split at h
    · cases h
    · obtain ⟨⟨alternative, draws⟩, hp, h⟩ := (bind_ok_iff _ _ _).mp h
      have hx : (g.expanderBy fun rule c => rule.thread g l levels c).Keeps R allowed :=
        g.expanderBy_keeps _ (fun hr ho => ih hr ho) hg
      refine hR.trans (hR.draw c draws) (threadText_keeps hR hx _ "" _ o ?_ h)
      intro t ht
      cases alternative with
      | none => simp [nodeTargets] at ht
      | some a =>
        obtain ⟨name, alternatives⟩ := r
        exact hr t (targets_of_alternative (Rule.elements_of_pick? hp a rfl) t ht)

theorem Grammar.threader_keeps (hR : KeptBySteps R allowed) (g : Grammar)
    (hg : ∀ t ∈ g.targets, allowed t) (l : DepthLimit) (levels : Nat) :
    (g.threader l levels : Expander σ).Keeps R allowed :=
  g.expanderBy_keeps _ (fun hr ho => Rule.thread_keeps hR g hg l levels hr ho) hg

end

end ProseGrammar
