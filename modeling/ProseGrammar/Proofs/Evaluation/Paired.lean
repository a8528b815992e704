import ProseGrammar.Proofs.Evaluation.Matching

/-!
# Two evaluations side by side

Two evaluations of the same node, from contexts that are related, go the same way if the relation is
enough for the frames to be the same, for draws and reads to give the same, and for assignments to
lead to related contexts again. Both then end in the same value and in related contexts, or both
fail. Which references have to be read and written alike is a matter of those that occur in the
node, so the relation may know about no others.
-/

namespace ProseGrammar

/-! ### Reads -/

mutual

/-- The references that a node reads. The name of a rule is read like that of a variable, which would
go before the rule. -/
def Node.reads : Node → List Reference
  | .literal _ => []
  | .rule name => [⟨[name], false⟩]
  | .reference target => [target]
  | .assign _ _ expression => expression.reads
  | .binary left _ right => left.reads ++ right.reads
  | .conditional condition whenTrue whenFalse =>
    condition.reads ++ whenTrue.reads ++ whenFalse.reads
  | .silent expression => expression.reads
  | .group members _ => nodeReads members
  | .alternative a => a.reads
  | .definition r => r.reads
  | .missing => []

def Alternative.reads : Alternative → List Reference
  | ⟨elements, _⟩ => nodeReads elements

def Rule.reads : Rule → List Reference
  | ⟨_, alternatives⟩ => alternativeReads alternatives

def nodeReads : List Node → List Reference
  | [] => []
  | n :: rest => n.reads ++ nodeReads rest

def alternativeReads : List Alternative → List Reference
  | [] => []
  | a :: rest => a.reads ++ alternativeReads rest

end

/-- The references that the rules of a grammar read. -/
def Grammar.reads (g : Grammar) : List Reference :=
  g.rules.flatMap fun entry => entry.2.reads

theorem reads_of_alternative {alternatives : List Alternative} {a : Alternative}
    (ha : a ∈ alternatives) : ∀ t ∈ nodeReads a.elements, t ∈ alternativeReads alternatives := by
  induction alternatives with
  | nil => simp at ha
  | cons b rest ih =>
    intro t ht
    simp only [alternativeReads, List.mem_append]
    rcases List.mem_cons.mp ha with rfl | hr
    · obtain ⟨elements, weight⟩ := a
      exact Or.inl ht
    · exact Or.inr (ih hr t ht)

theorem Grammar.reads_of_rule? {g : Grammar} {name : String} {r : Rule}
    (h : g.rule? name = some r) : ∀ t ∈ r.reads, t ∈ g.reads := by
  intro t ht
  exact List.mem_flatMap.mpr ⟨(name, r), Table.mem_of_get? h, ht⟩

/-! ### Steps -/

variable {σ τ : Type}

/-- Two outcomes have the same value and related contexts. -/
structure Outcome.Pairs (C : Context σ → Context τ → Prop) (o : Outcome σ) (p : Outcome τ) :
    Prop where
  value : o.value = p.value
  context : C o.context p.context

/-- Whether a rule reads and writes only references of two sets. -/
structure Rule.StaysWithin (readable writable : Reference → Prop) (r : Rule) : Prop where
  reads : ∀ t ∈ r.reads, readable t
  targets : ∀ t ∈ r.targets, writable t

/-- A relation between the contexts of two evaluations that fixes the frame and the draws, what
readable references of knowledge give, and that assignments to writable targets keep. -/
structure PairedSteps [DrawSource σ] [DrawSource τ] (C : Context σ → Context τ → Prop)
    (F : Fault → Fault → Prop) (readable writable : Reference → Prop) : Prop where
  fault : ∀ f, F f f
  frame : ∀ {c d}, C c d → c.frame = d.frame
  pick : ∀ {c d}, C c d → ∀ r : Rule, Paired (fun p q => p.1 = q.1 ∧
    C { c with draws := p.2 } { d with draws := q.2 }) F (r.pick? c.draws) (r.pick? d.draws)
  read : ∀ {c d target}, C c d → readable target → target.isKnowledge = true →
    target.path ≠ [] → Paired (Outcome.Pairs C) F
      (blameReference target (readKnowledge target.path c))
      (blameReference target (readKnowledge target.path d))
  assign : ∀ {c d target op value}, C c d → writable target →
    Paired (Outcome.Pairs C) F (assign target op value c) (assign target op value d)

/-! ### Trees that match themselves -/

section

variable {readable writable : Reference → Prop}

/-- All values and all rules, and the references of two sets; no name is respelled. -/
def Vocabulary.within (readable writable : Reference → Prop) : Vocabulary :=
  ⟨fun _ => True, readable, writable, fun _ => True, fun _ => False⟩

mutual

theorem Node.matches_self (n : Node) (hr : ∀ t ∈ n.reads, readable t)
    (hw : ∀ t ∈ n.targets, writable t) : n.Matches (.within readable writable) n := by
  cases n with
  | literal w => exact .literal trivial
  | rule name => exact .rule (hr _ List.mem_cons_self)
  | reference target => exact .reference (hr _ List.mem_cons_self)
  | assign target op e =>
    exact .assign (hw _ List.mem_cons_self)
      (Node.matches_self e hr fun t ht => hw t (List.mem_cons_of_mem _ ht))
  | binary l op r =>
    simp only [Node.reads, Node.targets, List.mem_append] at hr hw
    exact .binary (Node.matches_self l (fun t ht => hr t (.inl ht)) fun t ht => hw t (.inl ht))
      (Node.matches_self r (fun t ht => hr t (.inr ht)) fun t ht => hw t (.inr ht))
  | conditional a b e =>
    simp only [Node.reads, Node.targets, List.mem_append] at hr hw
    exact .conditional
      (Node.matches_self a (fun t ht => hr t (.inl (.inl ht))) fun t ht => hw t (.inl (.inl ht)))
      (Node.matches_self b (fun t ht => hr t (.inl (.inr ht))) fun t ht => hw t (.inl (.inr ht)))
      (Node.matches_self e (fun t ht => hr t (.inr ht)) fun t ht => hw t (.inr ht))
  | silent e => exact .silent (Node.matches_self e hr hw)
  | group ns prose => exact .group (nodesMatch_self ns hr hw)
  | alternative a =>
    obtain ⟨ns, weight⟩ := a
    exact .alternative (.mk (nodesMatch_self ns hr hw))
  | definition r =>
    obtain ⟨name, as⟩ := r
    exact .definition (.mk trivial (alternativesMatch_self as hr hw))
  | missing => exact .missing

theorem nodesMatch_self (ns : List Node) (hr : ∀ t ∈ nodeReads ns, readable t)
    (hw : ∀ t ∈ nodeTargets ns, writable t) : NodesMatch (.within readable writable) ns ns := by
  cases ns with
  | nil => exact .nil
  | cons n ns =>
    simp only [nodeReads, nodeTargets, List.mem_append] at hr hw
    exact .cons (Node.matches_self n (fun t ht => hr t (.inl ht)) fun t ht => hw t (.inl ht))
      (nodesMatch_self ns (fun t ht => hr t (.inr ht)) fun t ht => hw t (.inr ht))

theorem alternativesMatch_self (as : List Alternative)
    (hr : ∀ t ∈ alternativeReads as, readable t) (hw : ∀ t ∈ alternativeTargets as, writable t) :
    AlternativesMatch (.within readable writable) as as := by
  cases as with
  | nil => exact .nil
  | cons a as =>
    obtain ⟨ns, weight⟩ := a
    simp only [alternativeReads, alternativeTargets, List.mem_append] at hr hw
    exact .cons (.mk (nodesMatch_self ns (fun t ht => hr t (.inl ht)) fun t ht => hw t (.inl ht)))
      (alternativesMatch_self as (fun t ht => hr t (.inr ht)) fun t ht => hw t (.inr ht))

end

theorem Rule.matches_self {r : Rule} (h : r.StaysWithin readable writable) :
    r.Matches (.within readable writable) r := by
  obtain ⟨name, as⟩ := r
  exact .mk trivial (alternativesMatch_self as h.reads h.targets)

/-- Grammars match if they have the same rules under all names that may be read. -/
theorem Grammar.matches_within {g h : Grammar}
    (hrules : ∀ name, readable ⟨[name], false⟩ → g.rule? name = h.rule? name ∧
      ∀ r, g.rule? name = some r → r.StaysWithin readable writable) :
    g.Matches (.within readable writable) h := by
  intro name hname
  obtain ⟨hsame, hwithin⟩ := hrules name hname
  rw [← hsame]
  cases hr : g.rule? name with
  | none => exact .none
  | some r => exact .some (Rule.matches_self (hwithin r hr))

end

/-! ### Runs -/

section

variable [DrawSource σ] [DrawSource τ] {C : Context σ → Context τ → Prop}
  {F : Fault → Fault → Prop} {readable writable : Reference → Prop}

theorem PairedSteps.simulation (hC : PairedSteps C F readable writable) :
    Simulation (.within readable writable) C F where
  fault := hC.fault
  respelled := False.elim
  text _ := trivial
  operator _ := trivial
  frame := hC.frame
  bound _ _ := trivial
  pick h _ := hC.pick h _
  read h ht hknowledge hpath :=
    paired_mono (hC.read h ht hknowledge hpath) fun _ _ hop => ⟨hop.value, trivial, hop.context⟩
  assign h ht _ := paired_mono (hC.assign h ht) fun _ _ hop => ⟨hop.value, trivial, hop.context⟩

/-- Runs from related contexts go the same way in two grammars that have the same rules under all
names that may be read. -/
theorem Grammar.run_paired (hC : PairedSteps C F readable writable) (g h : Grammar)
    (hstart : readable ⟨["start"], false⟩)
    (hrules : ∀ name, readable ⟨[name], false⟩ → g.rule? name = h.rule? name ∧
      ∀ r, g.rule? name = some r → r.StaysWithin readable writable)
    (l : DepthLimit) {c : Context σ} {d : Context τ} (hc : c.HoldsObject) (hd : d.HoldsObject)
    (hcd : C c d) : Paired (Outcome.Pairs C) F (g.run l c) (h.run l d) := by
  have hrun := Grammar.run_matches hC.simulation (Grammar.matches_within hrules) hstart l hc hd hcd
  exact paired_mono hrun fun _ _ hop => ⟨hop.value, hop.context⟩

end

end ProseGrammar
