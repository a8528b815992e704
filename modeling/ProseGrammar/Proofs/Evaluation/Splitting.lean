import ProseGrammar.Evaluation
import ProseGrammar.Proofs.Results
import ProseGrammar.Proofs.Text.Prose

/-!
# Splitting alternatives

The elements of an alternative grow one text, and joining text is associative. So an alternative can
be split anywhere: its parts evaluate one after the other, each in the context that the one before
has left, and their texts are joined.
-/

namespace ProseGrammar

variable {σ : Type}

/-- The text of a value that is one. -/
def Value.textOf : Value → String
  | .text s => s
  | _ => ""

/-- The value of an outcome as text behind another text. -/
def Outcome.behind (front : String) (o : Outcome σ) : Outcome σ :=
  ⟨.text (Text.joinProse front o.value.textOf), o.context⟩

/-! ### Elements -/

theorem appendValue_joinProse (front output : String) (v : Value) :
    appendValue (Text.joinProse front output) v =
      (appendValue output v).map (Text.joinProse front) := by
  have hdisplay : ∀ shown : Except Fault String,
      (do return Text.joinProse (Text.joinProse front output) (← shown)) =
        Except.map (Text.joinProse front) (do return Text.joinProse output (← shown)) := by
    intro shown
    cases shown with
    | error fault => rfl
    | ok s => exact congrArg Except.ok (Text.joinProse_assoc front output s)
  cases v with
  | null => rfl
  | text s => exact congrArg Except.ok (Text.joinProse_assoc front output s)
  | _ => exact hdisplay _

section

variable [DrawSource σ] (x : Expander σ)

theorem value_evaluateElements (ns : List Node) (output : String) (c : Context σ) :
    GivesIn (fun o => ∃ s, o.value = .text s) (evaluateElements x ns output c) := by
  induction ns generalizing output c with
  | nil => exact givesIn_ok ⟨output, rfl⟩
  | cons n rest ih =>
    rw [evaluateElements]
    refine givesIn_bind (givesIn_true _) fun o _ => ?_
    exact givesIn_bind (givesIn_true _) fun text _ => ih text _

/-- Elements that grow a text behind another one grow both. -/
theorem evaluateElements_joinProse (ns : List Node) (front output : String) (c : Context σ) :
    evaluateElements x ns (Text.joinProse front output) c =
      (evaluateElements x ns output c).map (Outcome.behind front) := by
  induction ns generalizing output c with
  | nil => rfl
  | cons n rest ih =>
    rw [evaluateElements, evaluateElements]
    cases hn : n.evaluate x false c with
    | error fault => rfl
    | ok o =>
      show (appendValue _ (o.close c).value >>= fun text => _) =
        Except.map _ (appendValue _ (o.close c).value >>= fun text => _)
      rw [appendValue_joinProse]
      cases appendValue output (o.close c).value with
      | error fault => rfl
      | ok text => exact ih text (o.close c).context

theorem evaluateElements_append (es fs : List Node) (output : String) (c : Context σ) :
    evaluateElements x (es ++ fs) output c = (do
      let first ← evaluateElements x es output c
      evaluateElements x fs first.value.textOf first.context) := by
  induction es generalizing output c with
  | nil => rfl
  | cons n rest ih =>
    rw [List.cons_append, evaluateElements, evaluateElements]
    simp only [bind_assoc, ih]

end

/-! ### Alternatives -/

/-- Joining is associative and has the empty text as its identity; a text that is joined from parts
is their running text. So an alternative evaluates like the first of its elements, followed by the
rest in the context that these leave, with both texts joined, or it has the same fault. -/
theorem evaluate_alternative_append [DrawSource σ] :
    (∀ a b c : String, Text.joinProse (Text.joinProse a b) c =
      Text.joinProse a (Text.joinProse b c)) ∧
    (∀ s : String, Text.joinProse "" s = s ∧ Text.joinProse s "" = s) ∧
    (∀ parts : List String,
      parts.foldl Text.joinProse "" = Text.running (parts.filter fun part => part ≠ "")) ∧
    ∀ (g : Grammar) (l : DepthLimit) (levels : Nat) (es fs : List Node) (weight : Value)
      (c : Context σ),
      let x : Expander σ := g.expander l levels
      (Alternative.mk (es ++ fs) weight).evaluate x c = (do
        let first ← (Alternative.mk es weight).evaluate x c
        let second ← (Alternative.mk fs weight).evaluate x first.context
        return ⟨.text (Text.joinProse first.value.textOf second.value.textOf), second.context⟩) ∧
      GivesIn (fun o => ∃ s, o.value = .text s) ((Alternative.mk es weight).evaluate x c) := by
  refine ⟨Text.joinProse_assoc,
    fun s => ⟨Text.joinProse_empty_left s, Text.joinProse_empty_right s⟩, Text.prose_eq_running, ?_⟩
  intro g l levels es fs weight c x
  refine ⟨?_, value_evaluateElements x es "" c⟩
  simp only [Alternative.evaluate]
  rw [evaluateElements_append]
  refine bind_congr_ok _ _ _ fun first _ => ?_
  have hgrown : evaluateElements x fs first.value.textOf first.context =
      (evaluateElements x fs "" first.context).map (Outcome.behind first.value.textOf) := by
    have h := evaluateElements_joinProse x fs first.value.textOf "" first.context
    rwa [Text.joinProse_empty_right] at h
  rw [hgrown]
  cases evaluateElements x fs "" first.context with
  | error fault => rfl
  | ok second => rfl

end ProseGrammar
