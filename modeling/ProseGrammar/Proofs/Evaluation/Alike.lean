import ProseGrammar.Generator
import ProseGrammar.Proofs.Evaluation.Steps
import ProseGrammar.Proofs.Grammar.Form

/-!
# What is read back runs alike

Reading a grammar back may turn the name of a rule into the name of a variable or the other way, and
a number in running text into its text. Neither makes a difference to what an execution gives: a
name is looked up among the variables first and among the rules second either way, and a number
enters running text as its text. Only the faults of a name that is neither are worded differently,
so two computations are compared by their results.
-/

namespace ProseGrammar

/-! ### Results -/

/-- Two computations are alike if they have the same result, or both none. -/
def Alike {α : Type} (r s : Except Fault α) : Prop :=
  ∀ a, r = .ok a ↔ s = .ok a

theorem alike_refl {α : Type} (r : Except Fault α) : Alike r r := fun _ => Iff.rfl

theorem alike_of_eq {α : Type} {r s : Except Fault α} (h : r = s) : Alike r s := by
  subst h
  exact alike_refl r

theorem alike_errors {α : Type} (e e' : Fault) :
    Alike (.error e : Except Fault α) (.error e') := by
  intro a
  constructor <;> exact fun h => nomatch h

theorem alike_symm {α : Type} {r s : Except Fault α} (h : Alike r s) : Alike s r := fun a =>
  (h a).symm

theorem alike_trans {α : Type} {r s t : Except Fault α} (h : Alike r s) (h' : Alike s t) :
    Alike r t := fun a => (h a).trans (h' a)

theorem alike_bind_ok {α β : Type} {r s : Except Fault α} {f g : α → Except Fault β}
    (h : Alike r s) (hf : ∀ a, r = .ok a → Alike (f a) (g a)) : Alike (r >>= f) (s >>= g) := by
  intro b
  rw [bind_ok_iff, bind_ok_iff]
  constructor
  · rintro ⟨a, ha, hb⟩
    exact ⟨a, (h a).mp ha, (hf a ha b).mp hb⟩
  · rintro ⟨a, ha, hb⟩
    exact ⟨a, (h a).mpr ha, (hf a ((h a).mpr ha) b).mpr hb⟩

theorem alike_bind {α β : Type} {r s : Except Fault α} {f g : α → Except Fault β}
    (h : Alike r s) (hf : ∀ a, Alike (f a) (g a)) : Alike (r >>= f) (s >>= g) :=
  alike_bind_ok h fun a _ => hf a

/-! ### Names -/

section

variable {σ : Type} [DrawSource σ] {x y : Expander σ}

/-- Two expanders expand names alike. -/
def Expander.Alike (x y : Expander σ) : Prop :=
  ∀ name c, ProseGrammar.Alike (x.expandNamed name c) (y.expandNamed name c)

omit [DrawSource σ] in
theorem alike_blameReference (target : Reference) (r : Except Fault (Outcome σ)) :
    Alike (blameReference target r) r := by
  unfold blameReference
  split
  · exact alike_errors _ _
  · exact alike_refl _

/-- A lone name is looked up among the variables first, and among the rules second. -/
theorem alike_single (h : x.Alike y) (name : String) (c : Context σ) :
    Alike (readRule x name c) (readReference y ⟨[name], false⟩ c) := by
  unfold readRule readReference
  cases hv : c.frame.get? name with
  | some value =>
    have hhas : c.frame.has name = true := by
      rw [Table.has, hv]
      rfl
    have hread : readVariable name [] c = (do return ⟨← value.coerce, c⟩) := by
      rw [readVariable, hv]
      rfl
    simp only [hhas]
    exact alike_symm (alike_trans (alike_blameReference _ _) (alike_of_eq hread))
  | none =>
    have hhas : c.frame.has name = false := by
      rw [Table.has, hv]
      rfl
    have hread : readVariable name [] c = throw (.evaluation (.undefined name) none) := by
      rw [readVariable, hv]
    simp only [hhas]
    refine alike_bind (h name c) fun expanded => ?_
    cases expanded with
    | some outcome => exact alike_refl _
    | none =>
      show Alike _ (blameReference ⟨[name], false⟩ (readVariable name [] c))
      rw [hread]
      exact alike_errors _ _

theorem alike_readReference (h : x.Alike y) (target : Reference) (c : Context σ) :
    Alike (readReference x target c) (readReference y target c) := by
  unfold readReference
  split
  · exact alike_refl _
  · split
    · exact alike_refl _
    · dsimp only
      split
      · exact alike_bind (h _ c) fun expanded => alike_refl _
      · exact alike_refl _

omit [DrawSource σ] in
theorem alike_readRule (h : x.Alike y) (name : String) (c : Context σ) :
    Alike (readRule x name c) (readRule y name c) := by
  unfold readRule
  split
  · exact alike_refl _
  · exact alike_bind (h name c) fun expanded => alike_refl _

/-! ### Nodes -/

theorem isMissing_reread (n : Node) (place : Place) : (n.reread place).isMissing = n.isMissing := by
  cases n with
  | reference target =>
    simp only [Node.reread]
    split <;> rfl
  | rule name =>
    simp only [Node.reread]
    split <;> rfl
  | _ => rfl

mutual

theorem alike_evaluate (h : x.Alike y) (n : Node) (place : Place) (hf : n.fits place = true)
    (asBranch : Bool) (c : Context σ) :
    Alike (n.evaluate x asBranch c) ((n.reread place).evaluate y asBranch c) := by
  cases n with
  | literal v => exact alike_refl _
  | rule name =>
    simp only [Node.reread]
    split
    · exact alike_single h name c
    · exact alike_readRule h name c
  | reference target =>
    simp only [Node.reread]
    split
    next hsingle =>
      -- the name of a variable is read back as that of a rule: the last case the other way round
      obtain ⟨path, isKnowledge⟩ := target
      simp only [Reference.isSingle, Bool.and_eq_true, Bool.not_eq_true', beq_iff_eq] at hsingle
      obtain ⟨⟨rfl, hlength⟩, -⟩ := hsingle
      obtain ⟨name, rfl⟩ := List.length_eq_one_iff.mp hlength
      exact alike_symm (alike_single (fun name c => alike_symm (h name c)) name c)
    next => exact alike_readReference h target c
  | assign target op expression =>
    simp only [Node.fits, Bool.and_eq_true] at hf
    exact alike_bind (alike_evaluate h expression .expression hf.2 false c) fun e => alike_refl _
  | binary left op right =>
    simp only [Node.fits, Bool.and_eq_true] at hf
    refine alike_bind (alike_evaluate h left .operand hf.1.1 false c) fun l => ?_
    refine alike_bind (alike_evaluate h right .operand hf.2 false l.context) fun r => ?_
    exact alike_refl _
  | conditional condition whenTrue whenFalse =>
    simp only [Node.fits, Bool.and_eq_true] at hf
    refine alike_bind (alike_evaluate h condition .expression hf.1.1 false c) fun test => ?_
    rw [isMissing_reread]
    split
    · refine alike_bind (alike_evaluate h whenTrue .branch hf.1.2 true test.context) fun o => ?_
      exact alike_refl _
    · split
      · exact alike_refl _
      · refine alike_bind (alike_evaluate h whenFalse .otherwise hf.2 true test.context) fun o => ?_
        exact alike_refl _
  | silent expression =>
    exact alike_bind (alike_evaluate h expression .expression hf false c) fun e => alike_refl _
  | group members prose =>
    simp only [Node.fits, Bool.and_eq_true] at hf
    cases asBranch with
    | true =>
      refine alike_bind (alike_refl _) fun table => ?_
      exact alike_evaluateBranch h members hf.2 "" table c
    | false => exact alike_evaluateList h members hf.2 (.text "") c
  | alternative a => cases hf
  | definition r => cases hf
  | missing => exact alike_refl _

theorem alike_evaluateList (h : x.Alike y) (members : List Node) (hf : fitAll members = true)
    (last : Value) (c : Context σ) :
    Alike (evaluateList x members last c) (evaluateList y (rereadAll members) last c) := by
  cases members with
  | nil => exact alike_refl _
  | cons n rest =>
    simp only [fitAll, Bool.and_eq_true] at hf
    refine alike_bind (alike_evaluate h n .expression hf.1 false c) fun o => ?_
    exact alike_evaluateList h rest hf.2 _ _

theorem alike_evaluateBranch (h : x.Alike y) (members : List Node) (hf : fitAll members = true)
    (output : String) (collected : Table Value) (c : Context σ) :
    Alike (evaluateBranch x members output collected c)
      (evaluateBranch y (rereadAll members) output collected c) := by
  cases members with
  | nil => exact alike_refl _
  | cons n rest =>
    simp only [fitAll, Bool.and_eq_true] at hf
    refine alike_bind (alike_evaluate h n .expression hf.1 false c) fun o => ?_
    refine alike_bind (alike_refl _) fun output => ?_
    refine alike_bind (alike_refl _) fun table => ?_
    exact alike_evaluateBranch h rest hf.2 _ _ _

end

/-! ### Elements -/

theorem appendValue_number (output s : String) (n : Number) (h : n.display = .ok s) :
    appendValue output (.number n) = appendValue output (.text s) := by
  show (do return Text.joinProse output (← n.display)) = .ok (Text.joinProse output s)
  rw [h]
  rfl

theorem evaluateElements_literal (v : Value) (rest : List Node) (output : String)
    (c : Context σ) :
    evaluateElements x (.literal v :: rest) output c =
      (appendValue output v >>= fun output =>
        evaluateElements x rest output (Outcome.close c ⟨v, c⟩).context) := by
  rw [evaluateElements, Node.evaluate]
  rfl

theorem alike_evaluateElements (h : x.Alike y) (elements : List Node)
    (hf : fitAll elements = true) (output : String) (c : Context σ) :
    Alike (evaluateElements x elements output c)
      (evaluateElements y (elements.map Node.rereadElement) output c) := by
  induction elements generalizing output c with
  | nil => exact alike_refl _
  | cons n rest ih =>
    simp only [fitAll, Bool.and_eq_true] at hf
    have hrest := ih hf.2
    -- a numeral in running text is read back as its text, everything else as an expression is
    have hsame : n.rereadElement = n.reread .expression ∨
        ∃ m s, n = .literal (.number m) ∧ m.display = .ok s ∧
          n.rereadElement = .literal (.text s) := by
      unfold Node.rereadElement
      split
      next m =>
        split
        next s hs => exact .inr ⟨m, s, rfl, hs, rfl⟩
        next => exact .inl rfl
      next => exact .inl rfl
    rw [List.map_cons]
    rcases hsame with hexpression | ⟨m, s, rfl, hs, htext⟩
    · rw [hexpression]
      refine alike_bind (alike_evaluate h n .expression hf.1 false c) fun o => ?_
      exact alike_bind (alike_refl _) fun output => hrest output _
    · rw [htext, evaluateElements_literal, evaluateElements_literal,
        appendValue_number output s m hs]
      exact alike_bind (alike_refl _) fun output => hrest output _

end

/-! ### Rules -/

section

variable {σ : Type} [DrawSource σ]

omit [DrawSource σ] in
theorem rule?_reread (g : Grammar) (name : String) :
    g.reread.rule? name = (g.rule? name).map Rule.reread := by
  obtain ⟨rules⟩ := g
  show Table.get? (rules.map fun entry => (entry.1, entry.2.reread)) name =
    (Table.get? rules name).map Rule.reread
  induction rules with
  | nil => rfl
  | cons entry rules ih =>
    obtain ⟨key, r⟩ := entry
    by_cases hkey : key = name
    · simp [Table.get?, hkey]
    · simpa [Table.get?, hkey] using ih

/-- The alternatives of a rule that is read back have the same weights, so a draw picks the same
one. -/
theorem pick?_reread (r : Rule) (draws : σ) :
    r.reread.pick? draws =
      (r.pick? draws >>= fun picked => pure (picked.1.map Alternative.reread, picked.2)) := by
  obtain ⟨name, alternatives⟩ := r
  have hweights : (alternatives.map Alternative.reread).map (fun a => a.weight) =
      alternatives.map fun a => a.weight := by
    rw [List.map_map]
    rfl
  have hdraw : (Selection.weightedIndex .values ((alternatives.map Alternative.reread).map
        fun a => a.weight) (.float (DrawSource.draw draws).1) >>= fun index =>
          pure ((alternatives.map Alternative.reread)[index]?, (DrawSource.draw draws).2)) =
      ((Selection.weightedIndex .values (alternatives.map fun a => a.weight)
          (.float (DrawSource.draw draws).1) >>= fun index =>
            pure (alternatives[index]?, (DrawSource.draw draws).2)) >>= fun picked =>
              pure (picked.1.map Alternative.reread, picked.2) :
        Except Fault (Option Alternative × σ)) := by
    rw [hweights, bind_assoc]
    simp only [List.getElem?_map, pure_bind]
  match alternatives, hdraw with
  | [], hdraw => exact hdraw
  | [a], _ => rfl
  | a :: b :: others, hdraw => exact hdraw

theorem alike_expand (g : Grammar) (hf : ∀ name r, g.rule? name = some r → r.fits = true)
    (l : DepthLimit) (levels : Nat) (r : Rule) (hr : r.fits = true) (c : Context σ) :
    Alike (r.expand g l levels c) (r.reread.expand g.reread l levels c) := by
  induction levels generalizing r c with
  | zero =>
    obtain ⟨name, alternatives⟩ := r
    unfold Rule.expand
    rw [Rule.reread, List.isEmpty_map]
    split
    · exact alike_refl _
    · exact alike_refl _
  | succ levels ih =>
    have hx : (g.expander l levels : Expander σ).Alike (g.reread.expander l levels) := by
      intro name c
      simp only [Grammar.expander, Grammar.expanderBy, rule?_reread]
      cases hrule : g.rule? name with
      | none => exact alike_refl _
      | some r' => exact alike_bind (ih r' (hf name r' hrule) c) fun o => alike_refl _
    simp only [Rule.fits, Bool.and_eq_true, List.all_eq_true] at hr
    have hempty : r.reread.alternatives.isEmpty = r.alternatives.isEmpty := by
      obtain ⟨name, alternatives⟩ := r
      exact List.isEmpty_map
    have hname : r.reread.name = r.name := rfl
    unfold Rule.expand
    rw [pick?_reread, hempty, hname]
    split
    · exact alike_refl _
    dsimp only
    rw [bind_assoc]
    -- the alternative that is picked is one of the rule, so it fits
    refine alike_bind_ok (alike_refl _) fun picked hpicked => ?_
    obtain ⟨alternative, draws⟩ := picked
    cases alternative with
    | none => exact alike_refl _
    | some a =>
      have ha := hr.2 a (Rule.elements_of_pick? hpicked a rfl)
      obtain ⟨elements, weight⟩ := a
      simp only [Alternative.fits, Bool.and_eq_true] at ha
      refine alike_bind (alike_evaluateElements hx elements ha.1.1.1.1 "" _) fun o => ?_
      exact alike_refl _

/-! ### Executions -/

theorem alike_executeWith (g : Grammar) (hf : g.fits = true) (settings : Settings)
    (knowledge seed : Value) (draws : σ) :
    Alike ((Generator.mk g settings).executeWith knowledge seed draws)
      ((Generator.mk g.reread settings).executeWith knowledge seed draws) := by
  have hrules : ∀ name r, g.rule? name = some r → r.fits = true := by
    intro name r hr
    simp only [Grammar.fits, Bool.and_eq_true, List.all_eq_true] at hf
    exact (hf.2 _ (Table.mem_of_get? hr)).2
  refine alike_bind (alike_refl _) fun k => ?_
  refine alike_bind ?_ fun o => alike_refl _
  simp only [Grammar.run, rule?_reread]
  cases hstart : g.rule? "start" with
  | none => exact alike_refl _
  | some r => exact alike_expand g hrules _ _ r (hrules _ r hstart) _

end

end ProseGrammar
