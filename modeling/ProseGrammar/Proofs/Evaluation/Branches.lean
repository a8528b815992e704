import Mathlib.Data.List.Chain
import ProseGrammar.Proofs.Evaluation.Scopes

/-!
# Branches of several parts

The parts of a branch evaluate like the elements of an alternative. A branch also merges what each
of its parts leaves of the knowledge; since no evaluation removes a key or moves it, the merged
knowledge is always the last one.
-/

namespace ProseGrammar

/-! ### Chains of growing tables -/

theorem Table.foldl_merge_of_grows {α : Type} {t : Table α} {ts : List (Table α)}
    (h : List.IsChain Table.Grows (t :: ts)) : ts.foldl Table.merge t = ts.getLastD t := by
  induction ts generalizing t with
  | nil => rfl
  | cons u ts ih =>
    obtain ⟨hgrows, hrest⟩ := List.isChain_cons_cons.mp h
    rw [List.foldl_cons, Table.merge_of_grows t u hgrows, ih hrest, List.getLastD_cons]

/-! ### Knowledge after each element -/

section

variable {σ : Type} [DrawSource σ]

/-- The knowledge that each element leaves, up to the first one that fails. -/
def snapshots (x : Expander σ) : List Node → Context σ → List Value
  | [], _ => []
  | n :: rest, c =>
    match n.evaluate x false c with
    | .error _ => []
    | .ok o => (o.close c).context.knowledge :: snapshots x rest (o.close c).context

theorem knowledge_evaluateElements {x : Expander σ} {ns : List Node} {output : String}
    {c : Context σ} {o : Outcome σ} (h : evaluateElements x ns output c = .ok o) :
    o.context.knowledge = (snapshots x ns c).getLastD c.knowledge := by
  induction ns generalizing output c with
  | nil =>
    simp only [evaluateElements] at h
    cases h
    rfl
  | cons n rest ih =>
    simp only [evaluateElements] at h
    obtain ⟨first, hfirst, h⟩ := (bind_ok_iff _ _ _).mp h
    obtain ⟨text, -, h⟩ := (bind_ok_iff _ _ _).mp h
    rw [ih h]
    simp only [snapshots, hfirst, List.getLastD_cons]

/-- Every snapshot is an object whose first keys are those of the one before. -/
theorem isChain_snapshots {x y : Expander σ} (hxy : x.Agrees y)
    (hy : y.Keeps Context.Grows fun _ => True) (ns : List Node) {k : Knowledge} {c : Context σ}
    (hk : c.knowledge = .object k) :
    ∃ ks : List Knowledge, snapshots x ns c = ks.map Value.object ∧
      List.IsChain Table.Grows (k :: ks) := by
  induction ns generalizing k c with
  | nil => exact ⟨[], rfl, .singleton k⟩
  | cons n rest ih =>
    cases hn : n.evaluate x false c with
    | error fault => exact ⟨[], by simp only [snapshots, hn, List.map_nil], .singleton k⟩
    | ok o =>
      have hthread : n.thread y false c = .ok o := by
        rw [← evaluate_thread hxy hy n false c ⟨k, hk⟩, hn]
      have hgrows := thread_grows hy hthread
      obtain ⟨k', hk', hkk'⟩ := hgrows.knowledge k hk
      obtain ⟨ks, hks, hchain⟩ := ih hk'
      refine ⟨k' :: ks, ?_, .cons_cons hkk' hchain⟩
      simp only [snapshots, hn, Outcome.close_of_grows c o hgrows, hk', hks, List.map_cons]

/-- A group evaluates as a branch exactly as its members do in an alternative: to the same text,
knowledge, variables and draws, or to the same fault. Merged into the knowledge that the branch
starts with, the snapshots up to any part are the last of them, and the knowledge that the branch
leaves is the last of all. -/
theorem evaluate_branch_eq_alternative (g : Grammar) (l : DepthLimit) (levels : Nat)
    (members : List Node) (prose : Bool) (weight : Value) (k : Knowledge) (frame : Table Value)
    (draws : σ) :
    let x : Expander σ := g.expander l levels
    let c : Context σ := ⟨.object k, frame, draws⟩
    (Node.group members prose).evaluate x true c = (Alternative.mk members weight).evaluate x c ∧
    ∃ ks : List Knowledge, snapshots x members c = ks.map Value.object ∧
      (∀ i, (ks.take i).foldl Table.merge k = (ks.take i).getLastD k) ∧
      GivesIn (fun o => o.context.knowledge = .object (ks.getLastD k))
        ((Node.group members prose).evaluate x true c) := by
  intro x c
  have hxy : x.Agrees (g.threader l levels) := expander_agrees g l levels
  have hy := threader_grows (σ := σ) g l levels
  have hbranch : (Node.group members prose).evaluate x true c =
      (Alternative.mk members weight).evaluate x c := by
    rw [evaluate_thread hxy hy (.group members prose) true c ⟨k, rfl⟩]
    simp only [Alternative.evaluate, Node.thread]
    rw [evaluateElements_thread hxy hy members "" c ⟨k, rfl⟩]
    rfl
  obtain ⟨ks, hks, hchain⟩ := isChain_snapshots hxy hy members (c := c) rfl
  refine ⟨hbranch, ks, hks, fun i => ?_, fun o ho => ?_⟩
  · exact Table.foldl_merge_of_grows (hchain.take (i + 1))
  · rw [hbranch] at ho
    rw [knowledge_evaluateElements ho, hks]
    simp only [List.getLastD_eq_getLast?, List.getLast?_map, c]
    exact Option.getD_map Value.object k ks.getLast?

end

end ProseGrammar
