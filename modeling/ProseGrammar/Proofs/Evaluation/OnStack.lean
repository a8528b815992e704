import ProseGrammar.Generator
import ProseGrammar.Proofs.Results

/-!
# Runs on a stack

A computation settles if some room is enough for it: there and in all larger rooms it comes to one
result, and in all smaller ones it is given up. Evaluation on a stack settles to what evaluation says
without one, node by node and level by level, so a run on a stack is the run that the grammar asks
for, or is given up, and which of the two depends on the size of the stack alone.
-/

namespace ProseGrammar

/-! ### Settling -/

/-- Whether a computation comes to a result in every room of some size or more, and to a fault of a
class in every smaller one. -/
def Settles {α : Type} (F : Fault → Prop) (f : Nat → Except Fault α) (r : Except Fault α) : Prop :=
  ∃ need, ∀ room, (need ≤ room → f room = r) ∧
    (room < need → ∃ fault, F fault ∧ f room = .error fault)

section

variable {α β : Type} {F : Fault → Prop} {f : Nat → Except Fault α} {r : Except Fault α}

theorem settles_const (r : Except Fault α) : Settles F (fun _ => r) r :=
  ⟨0, fun _ => ⟨fun _ => rfl, nofun⟩⟩

theorem settles_enter {fault : Fault} (hfault : F fault) (calls : Nat) (h : Settles F f r) :
    Settles F (fun room => Stack.enter fault calls room f) r := by
  obtain ⟨need, hneed⟩ := h
  refine ⟨calls + need, fun room => ⟨fun hroom => ?_, fun hroom => ?_⟩⟩
  · exact (if_pos (by omega)).trans ((hneed _).1 (by omega))
  · dsimp only [Stack.enter]
    split
    · exact (hneed _).2 (by omega)
    · exact ⟨fault, hfault, rfl⟩

/-- Calls that have ended when the others begin need room as well. -/
theorem settles_before {fault : Fault} (hfault : F fault) (calls : Nat) (h : Settles F f r) :
    Settles F (fun room => Stack.enter fault calls room fun _ => f room) r := by
  obtain ⟨need, hneed⟩ := h
  refine ⟨max calls need, fun room => ⟨fun hroom => ?_, fun hroom => ?_⟩⟩
  · exact (if_pos (by omega)).trans ((hneed room).1 (by omega))
  · dsimp only [Stack.enter]
    split
    · exact (hneed room).2 (by omega)
    · exact ⟨fault, hfault, rfl⟩

theorem settles_bind {g : Nat → α → Except Fault β} {s : α → Except Fault β} (h : Settles F f r)
    (hnext : ∀ a, r = .ok a → Settles F (fun room => g room a) (s a)) :
    Settles F (fun room => f room >>= g room) (r >>= s) := by
  obtain ⟨need, hneed⟩ := h
  cases r with
  | error fault =>
    refine ⟨need, fun room => ⟨fun hroom => ?_, fun hroom => ?_⟩⟩
    · exact congrArg (· >>= g room) ((hneed room).1 hroom)
    · obtain ⟨fault, hfault, heq⟩ := (hneed room).2 hroom
      exact ⟨fault, hfault, congrArg (· >>= g room) heq⟩
  | ok a =>
    -- the steps follow each other, so the room that one leaves is there for the next
    obtain ⟨next, hnext⟩ := hnext a rfl
    have hgoes : ∀ room, need ≤ room → f room >>= g room = g room a := fun room hroom =>
      congrArg (· >>= g room) ((hneed room).1 hroom)
    refine ⟨max need next, fun room => ⟨fun hroom => ?_, fun hroom => ?_⟩⟩
    · exact (hgoes room (by omega)).trans ((hnext room).1 (by omega))
    · rcases Nat.lt_or_ge room need with hsmall | hlarge
      · obtain ⟨fault, hfault, heq⟩ := (hneed room).2 hsmall
        exact ⟨fault, hfault, congrArg (· >>= g room) heq⟩
      · obtain ⟨fault, hfault, heq⟩ := (hnext room).2 (by omega)
        exact ⟨fault, hfault, (hgoes room hlarge).trans heq⟩

end

/-- Whether rules are expanded on a stack as they are without one. -/
structure Expander.Settles {σ : Type} (F : Fault → Prop) (x : Nat → Expander σ) (y : Expander σ) :
    Prop where
  exhausted : F .exhausted
  expand : ∀ r c, ProseGrammar.Settles F (fun room => (x room).expand r c) (y.expand r c)
  expandNamed : ∀ name c,
    ProseGrammar.Settles F (fun room => (x room).expandNamed name c) (y.expandNamed name c)

/-! ### Nodes -/

section

variable {σ : Type} {F : Fault → Prop} {x : Nat → Expander σ} {y : Expander σ}

theorem settles_readRule (hx : Expander.Settles F x y) (name : String) (c : Context σ) :
    Settles F (fun room => readRule (x room) name c) (readRule y name c) := by
  unfold readRule
  cases c.frame.get? name with
  | some value => exact settles_const _
  | none => exact settles_bind (hx.expandNamed name c) fun _ _ => settles_const _

theorem settles_readReference [DrawSource σ] (hx : Expander.Settles F x y) (target : Reference)
    (c : Context σ) :
    Settles F (fun room => readReference (x room) target c) (readReference y target c) := by
  unfold readReference
  cases target.path with
  | nil => exact settles_const _
  | cons name path =>
    dsimp only
    split
    · exact settles_const _
    · split
      · exact settles_bind (hx.expandNamed name c) fun _ _ => settles_const _
      · exact settles_const _

theorem settles_within {α : Type} (hF : F .exhausted) (calls : Nat) {f : Nat → Except Fault α}
    {r : Except Fault α} (h : Settles F f r) : Settles F (fun room => Stack.within calls room f) r :=
  settles_enter hF calls h

variable [DrawSource σ]

mutual

/-- A node is evaluated on a stack as it is without one; the cases are those of evaluation. -/
theorem Node.settles_evaluateOn (hx : Expander.Settles F x y) (asBranch : Bool) (n : Node)
    (c : Context σ) :
    Settles F (fun room => n.evaluateOn x room asBranch c) (n.evaluate y asBranch c) := by
  cases n with
  | literal value => exact settles_within hx.exhausted _ (settles_const _)
  | rule name => exact settles_within hx.exhausted _ (settles_readRule hx name c)
  | reference target => exact settles_within hx.exhausted _ (settles_readReference hx target c)
  | assign target op expression =>
    refine settles_within hx.exhausted _
      (settles_bind (Node.settles_evaluateOn hx false expression c) fun e _ => ?_)
    exact settles_within hx.exhausted _ (settles_const _)
  | binary left op right =>
    refine settles_within hx.exhausted _
      (settles_bind (Node.settles_evaluateOn hx false left c) fun l _ => ?_)
    refine settles_bind (Node.settles_evaluateOn hx false right l.context) fun r _ => ?_
    exact settles_bind (settles_within hx.exhausted _ (settles_const _)) fun _ _ => settles_const _
  | conditional condition whenTrue whenFalse =>
    refine settles_within hx.exhausted _
      (settles_bind (Node.settles_evaluateOn hx false condition c) fun test _ => ?_)
    split
    · exact settles_bind (Node.settles_evaluateOn hx true whenTrue test.context) fun _ _ =>
        settles_const _
    · split
      · exact settles_const _
      · exact settles_bind (Node.settles_evaluateOn hx true whenFalse test.context) fun _ _ =>
          settles_const _
  | silent expression =>
    exact settles_within hx.exhausted _
      (settles_bind (Node.settles_evaluateOn hx false expression c) fun _ _ => settles_const _)
  | group members prose =>
    cases asBranch with
    | true =>
      exact settles_within hx.exhausted _
        (settles_bind (settles_const _) fun k _ => settles_evaluateBranchOn hx members "" k c)
    | false => exact settles_within hx.exhausted _ (settles_evaluateListOn hx members (.text "") c)
  | alternative a => exact settles_within hx.exhausted _ (Alternative.settles_evaluateOn hx a c)
  | definition r => exact settles_within hx.exhausted _ (hx.expand r c)
  | missing => exact settles_within hx.exhausted _ (settles_const _)

theorem Alternative.settles_evaluateOn (hx : Expander.Settles F x y) (a : Alternative)
    (c : Context σ) :
    Settles F (fun room => a.evaluateOn x room c) (a.evaluate y c) := by
  obtain ⟨elements, weight⟩ := a
  exact settles_within hx.exhausted _ (settles_evaluateElementsOn hx elements "" c)

theorem settles_evaluateElementsOn (hx : Expander.Settles F x y) (ns : List Node) (output : String)
    (c : Context σ) :
    Settles F (fun room => evaluateElementsOn x room ns output c)
      (evaluateElements y ns output c) := by
  cases ns with
  | nil => exact settles_const _
  | cons n rest =>
    refine settles_bind (Node.settles_evaluateOn hx false n c) fun o _ => ?_
    refine settles_bind (settles_within hx.exhausted _ (settles_const _)) fun output _ => ?_
    exact settles_evaluateElementsOn hx rest output _

theorem settles_evaluateListOn (hx : Expander.Settles F x y) (ns : List Node) (last : Value)
    (c : Context σ) :
    Settles F (fun room => evaluateListOn x room ns last c) (evaluateList y ns last c) := by
  cases ns with
  | nil => exact settles_const _
  | cons n rest =>
    exact settles_bind (Node.settles_evaluateOn hx false n c) fun o _ =>
      settles_evaluateListOn hx rest _ _

theorem settles_evaluateBranchOn (hx : Expander.Settles F x y) (ns : List Node) (output : String)
    (collected : Table Value) (c : Context σ) :
    Settles F (fun room => evaluateBranchOn x room ns output collected c)
      (evaluateBranch y ns output collected c) := by
  cases ns with
  | nil => exact settles_const _
  | cons n rest =>
    refine settles_bind (Node.settles_evaluateOn hx false n c) fun o _ => ?_
    refine settles_bind (settles_within hx.exhausted _ (settles_const _)) fun output _ => ?_
    refine settles_bind (settles_const _) fun k _ => ?_
    exact settles_evaluateBranchOn hx rest output _ _

end

end

/-! ### Rules -/

section

variable {σ : Type} {F : Fault → Prop} (hF : F .exhausted)
include hF

theorem Grammar.settles_expanderIn (g : Grammar)
    {expandOn : Nat → Rule → Context σ → Except Fault (Outcome σ)}
    {expand : Rule → Context σ → Except Fault (Outcome σ)}
    (h : ∀ r c, Settles F (fun room => expandOn room r c) (expand r c)) :
    Expander.Settles F (g.expanderIn expandOn) (g.expanderBy expand) where
  exhausted := hF
  expand := h
  expandNamed name c := by
    show Settles F (fun room => Stack.within 1 room fun room =>
      (g.expanderBy (expandOn room)).expandNamed name c) _
    refine settles_within hF 1 ?_
    unfold expanderBy
    dsimp only
    cases g.rule? name with
    | none => exact settles_const _
    | some rule => exact settles_bind (h rule c) fun _ _ => settles_const _

variable [DrawSource σ]

/-- A rule is expanded on a stack as it is without one, by induction on the levels. -/
theorem Rule.settles_expandOn (g : Grammar) (l : DepthLimit) (levels : Nat) (r : Rule)
    (c : Context σ) :
    Settles F (fun room => r.expandOn g l levels room c) (r.expand g l levels c) := by
  induction levels generalizing r c with
  | zero =>
    unfold expandOn expand
    refine settles_within hF 1 ?_
    split
    · exact settles_const _
    · exact settles_const _
  | succ levels ih =>
    unfold expandOn expand
    refine settles_within hF 1 ?_
    split
    · exact settles_const _
    · refine settles_bind (settles_const _) fun picked _ => settles_bind ?_ fun _ _ => settles_const _
      refine settles_within hF 1 ?_
      exact settles_evaluateElementsOn (g.settles_expanderIn hF ih) _ _ _

theorem Grammar.settles_runOn (g : Grammar) (l : DepthLimit) (c : Context σ) :
    Settles F (fun stack => g.runOn stack l c) (g.run l c) := by
  unfold runOn run
  cases g.rule? "start" with
  | none => exact settles_const _
  | some rule => exact settles_within hF 1 (Rule.settles_expandOn hF g l l.levels rule c)

end

/-! ### Executions -/

namespace Generator

variable {σ : Type} [DrawSource σ]

/-- The faults of an execution that is given up: the run is, or the knowledge cannot be copied. -/
inductive GivenUp : Fault → Prop
  | exhausted : GivenUp .exhausted
  | copying : GivenUp (.stack .copying)

/-- What an execution on a stack comes to, by the calls that it takes to copy the knowledge. -/
theorem executeWithOn_cases (stack : Nat) (g : Generator) (k : Knowledge) (seed : Value)
    (draws : σ) :
    (stack < (Value.object k).copyCalls + 1 ∧
      g.executeWithOn stack (.object k) seed draws = .error (.stack .copying)) ∨
    ((Value.object k).copyCalls + 1 ≤ stack ∧
      (g.executeWithOn stack (.object k) seed draws = g.executeWith (.object k) seed draws ∨
        g.executeWithOn stack (.object k) seed draws = .error .exhausted)) := by
  obtain ⟨need, hneed⟩ := g.grammar.settles_runOn (F := (· = .exhausted)) rfl
    g.settings.depthLimit ⟨.object k, [], draws⟩
  rcases Nat.lt_or_ge stack ((Value.object k).copyCalls + 1) with hsmall | hlarge
  · exact .inl ⟨hsmall, if_neg (by omega)⟩
  · have hcopied : g.executeWithOn stack (.object k) seed draws =
        (g.grammar.runOn stack g.settings.depthLimit ⟨.object k, [], draws⟩ >>= finish seed) :=
      if_pos hlarge
    refine .inr ⟨hlarge, ?_⟩
    rw [hcopied]
    rcases Nat.lt_or_ge stack need with hfew | henough
    · obtain ⟨fault, rfl, heq⟩ := (hneed stack).2 hfew
      exact .inr (congrArg (· >>= finish seed) heq)
    · exact .inl (congrArg (· >>= finish seed) ((hneed stack).1 henough))

theorem settles_executeWithOn (g : Generator) (knowledge seed : Value) (draws : σ) :
    Settles GivenUp (fun stack => g.executeWithOn stack knowledge seed draws)
      (g.executeWith knowledge seed draws) := by
  refine settles_bind (settles_const _) fun k _ => settles_before .copying _ ?_
  exact settles_bind (g.grammar.settles_runOn .exhausted _ _) fun _ _ => settles_const _

/-- On every stack of some size or more an execution is what it is without one, and on every smaller
one it is given up. -/
theorem settles_executeOn (g : Generator) (knowledge seed : Value) (fresh : Int) :
    Settles GivenUp (fun stack => g.executeOn stack knowledge seed fresh)
      (g.execute knowledge seed fresh) := by
  refine settles_bind (settles_const _) fun k _ => ?_
  unfold seeded
  generalize (if seed.isNull then g.settings.defaultSeed else seed) = chosen
  split
  · exact settles_executeWithOn g k .null _
  · exact settles_bind (settles_const _) fun draws _ => settles_executeWithOn g k chosen draws

end Generator

end ProseGrammar
