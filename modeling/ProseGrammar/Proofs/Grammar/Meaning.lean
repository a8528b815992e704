import ProseGrammar.Proofs.Evaluation.Alike
import ProseGrammar.Proofs.Grammar.Fitting
import ProseGrammar.Proofs.Grammar.RoundTrip

/-!
# Source text keeps the meaning

A grammar that was read from a text has a source text that can be read again, and both grammars run
alike on all knowledge and all draws, if every literal and every weight is written in a form that
reads as the same literal. This is not so for a number with a minus sign or an exponent in running
text, for a text that looks like a number and a double that looks like an integer in an expression,
for a number with a minus sign behind a question mark in a branch, and for weights with an exponent.
-/

namespace ProseGrammar

/-- The source text of a grammar that was read, and whose literals read back, reads as a grammar
whose executions are alike, if the limit on nesting allows its levels. -/
theorem executeWith_source (text : String) (ts : List Token) (depth : Nat) (g : Grammar)
    (hscan : Token.scan text = .ok ts) (hread : (Reading.ofTokens depth ts).grammar = .ok g)
    (hplain : g.plain = true) :
    ∃ s ts' g', g.source = .ok s ∧ Token.scan s = .ok ts' ∧
      (∀ depth', g.levels ≤ depth' → (Reading.ofTokens depth' ts').grammar = .ok g') ∧
      ∀ (σ : Type) [DrawSource σ] (settings : Settings) (knowledge seed : Value) (draws : σ),
        Alike ((Generator.mk g settings).executeWith knowledge seed draws)
          ((Generator.mk g' settings).executeWith knowledge seed draws) := by
  have hfits := fits_of_reading text ts depth g hscan hread
  obtain ⟨s, ts', hs, hscan', hreread⟩ := reading_source g hfits hplain
  refine ⟨s, ts', g.reread, hs, hscan', fun depth' h => (hreread depth' h).1, ?_⟩
  intro σ _ settings knowledge seed draws
  exact alike_executeWith g hfits settings knowledge seed draws

/-- A text with literals that read back: a branch of running text, a sum and a weight. -/
def plainText : String :=
  "$start := Well met, [$x ? 3 tall $name, [$x] | $$.player.title] ::2 | [$x = -1.5 + 4]\n$name := stranger"

theorem executeWith_source_plainText :
    ∃ ts g, Token.scan plainText = .ok ts ∧ (Reading.ofTokens 5 ts).grammar = .ok g ∧
      g.plain = true ∧ ∃ s ts' g', g.source = .ok s ∧ Token.scan s = .ok ts' ∧
        (∀ depth', g.levels ≤ depth' → (Reading.ofTokens depth' ts').grammar = .ok g') ∧
        ∀ (σ : Type) [DrawSource σ] (settings : Settings) (knowledge seed : Value) (draws : σ),
          Alike ((Generator.mk g settings).executeWith knowledge seed draws)
            ((Generator.mk g' settings).executeWith knowledge seed draws) := by
  have hplain : (Grammar.plain <$> (Token.scan plainText >>= fun ts =>
      (Reading.ofTokens 5 ts).grammar)).toOption = some true := by decide +kernel
  cases h : Token.scan plainText >>= fun ts => (Reading.ofTokens 5 ts).grammar with
  | error fault =>
    rw [h] at hplain
    cases hplain
  | ok g =>
    rw [h] at hplain
    obtain ⟨ts, hscan, hread⟩ := (bind_ok_iff _ _ _).mp h
    have hg : g.plain = true := Option.some.inj hplain
    exact ⟨ts, g, hscan, hread, hg, executeWith_source plainText ts 5 g hscan hread hg⟩

/-! ### Literals that do not read back -/

/-- What a grammar text yields without knowledge when all draws are one half. -/
def yieldOf (text : String) : Except Fault Execution := do
  let g ← Generator.compile (Reading.ofSource text) .standard
  g.executeWith .null .null (⟨0.5, []⟩ : DrawScript)

/-- Whether a grammar text yields something, and the source text of its grammar something else or
nothing. -/
def losesMeaning (text : String) : Bool :=
  match Generator.compile (Reading.ofSource text) .standard, yieldOf text with
  | .ok g, .ok e =>
    match g.source >>= yieldOf with
    | .ok e' => !(e.output.equal e'.output && e.knowledge.equal e'.knowledge)
    | .error _ => true
  | _, _ => false

/-- Every kind of literal that does not read back loses its meaning somewhere. -/
theorem losesMeaning_of_literals :
    ["$start := [-5]", "$start := [0.00001]", "$start := [$x = \"05\"]", "$start := [0.00001 + 1]",
      "$start := [5.0 * 9007199254740993]", "$start := [1 ? ? -3 | b]",
      "$start := a ::0.00001"].all losesMeaning = true := by
  decide +kernel

end ProseGrammar
