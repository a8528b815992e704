import ProseGrammar.Proofs.Decimal.Integers
import ProseGrammar.Proofs.Grammar.Parallel
import ProseGrammar.Proofs.Token.Joined

/-!
# Every list of tokens is read

A list of tokens that ends with the end of the text, and has it nowhere else, is read to a grammar
or to a fault. Nothing behind the end is looked at. As loops go round at most as often as there are
tokens, those behind the end included, this also says that no loop stops for that bound. A fault of
the text is at one of the tokens; a number without a value is an integer with too many digits; and
expressions nest too deeply only if there are more tokens than levels.
-/

namespace ProseGrammar

/-- Whether the last token, and no other, is the end of the text. -/
def Token.EndsOnce (tokens : List Token) : Prop :=
  ∃ body e, tokens = body ++ [e] ∧ e.kind = .endOfText ∧ ∀ t ∈ body, t.kind ≠ .endOfText

theorem endsOnce_of_scan (source : String) (tokens : List Token)
    (h : Token.scan source = .ok tokens) : Token.EndsOnce tokens := by
  obtain ⟨body, e, hbody, he, hkinds, _⟩ := scanFrom_joined ⟨1, 1⟩ source.toList [] tokens h
  exact ⟨body, e, hbody, he, hkinds⟩

/-- The faults of reading a list of tokens in which expressions nest at most `depth` levels deep:
each is at one of the tokens, unless there are fewer levels than tokens. -/
inductive Fault.IsAt (tokens : List Token) (depth : Nat) : Fault → Prop
  | syntactic {t : Token} (cause : SyntaxCause) (h : t ∈ tokens) :
      IsAt tokens depth (.syntactic cause t.position)
  | number {t : Token} {fault : Fault} (h : t ∈ tokens) (hk : t.kind = .number)
      (hf : t.number? = .error fault) : IsAt tokens depth fault
  | nesting (h : depth < tokens.length) : IsAt tokens depth .nesting

/-- A list of tokens, read beside the list that goes on behind its end. -/
def Seam.within (tokens : List Token) (depth : Nat) (e : Token) (he : e.kind = .endOfText)
    (junk : List Token) : Seam :=
  .ending e junk he True True (fun t u => t = u ∧ t ∈ tokens)
    (fun f g => f = g ∧ f.IsAt tokens depth)
    (by
      rintro t _ cause ⟨rfl, ht⟩
      exact ⟨rfl, .syntactic cause ht⟩)
    fun h hk hf => ⟨rfl, .number h.2 hk hf⟩

/-- What stands behind the end of a list makes no difference to its reading, and a fault is at one of
its tokens. -/
theorem ofTokens_within (depth : Nat) (tokens : List Token) (h : Token.EndsOnce tokens)
    (junk : List Token) :
    Reading.ofTokens depth (tokens ++ junk) = Reading.ofTokens depth tokens ∧
      ∀ fault ∈ (Reading.ofTokens depth tokens).fault, fault.IsAt tokens depth := by
  obtain ⟨body, e, rfl, he, hbody⟩ := h
  have hlist : body ++ [e] ++ junk = body ++ e :: junk := List.append_cons body e junk ▸ rfl
  let s := Seam.within (body ++ [e]) depth e he junk
  have halong : s.Along (body ++ [e]) (body ++ e :: junk) := by
    have hmap := s.along_map id body e
      (fun t ht => ⟨hbody t ht, rfl, rfl, fun _ => ⟨rfl, List.mem_append_left _ ht⟩⟩)
      (fun _ _ => rfl) he ?_
    · rwa [List.map_id] at hmap
    · rintro _ _ ⟨⟩
      exact ⟨rfl, rfl, fun _ => ⟨rfl, List.mem_append_right _ List.mem_cons_self⟩⟩
  have hlevels : s.Answers .nesting .nesting ∨ (body ++ [e]).length ≤ depth :=
    (Nat.lt_or_ge depth (body ++ [e]).length).imp_left fun hdeep => ⟨rfl, .nesting hdeep⟩
  obtain ⟨hrules, hfaults⟩ := Seam.ofTokens_ending (s := s) trivial trivial depth _ _ halong hlevels
    e he junk rfl
  rw [hlist]
  generalize Reading.ofTokens depth (body ++ [e]) = r at hrules hfaults ⊢
  generalize Reading.ofTokens depth (body ++ e :: junk) = r' at hrules hfaults ⊢
  obtain ⟨rules, fault⟩ := r
  obtain ⟨rules', fault'⟩ := r'
  obtain rfl : rules' = rules := hrules
  cases hfaults with
  | none => exact ⟨rfl, nofun⟩
  | some hanswer =>
    obtain ⟨rfl, hat⟩ := hanswer
    refine ⟨rfl, ?_⟩
    rintro _ ⟨⟩
    exact hat

/-- Reading ends for every list of tokens that ends once and has numerals for numbers: with a
grammar, with a fault at one of the tokens, without any rule, at an integer with too many digits, or,
if there are more tokens than levels, with too deep a nesting. It depends on nothing behind the end. -/
theorem grammar_of_endsOnce (depth : Nat) (tokens : List Token) (h : Token.EndsOnce tokens)
    (hnumbers : ∀ t ∈ tokens, t.kind = .number → Text.isPlainNumeral t.value.toList = true) :
    (∀ junk, Reading.ofTokens depth (tokens ++ junk) = Reading.ofTokens depth tokens) ∧
      ((∃ g, (Reading.ofTokens depth tokens).grammar = .ok g) ∨
        (∃ t ∈ tokens, ∃ cause,
          (Reading.ofTokens depth tokens).grammar = .error (.syntactic cause t.position)) ∨
        (Reading.ofTokens depth tokens).grammar = .error (.syntactic .noRules ⟨1, 1⟩) ∨
        (∃ t ∈ tokens, t.kind = .number ∧ (∀ c ∈ t.value.toList, Decimal.isDigit c = true) ∧
          4300 < t.value.toList.length ∧ (Reading.ofTokens depth tokens).grammar =
            .error (.integerText (some t.value.toList.length))) ∨
        (depth < tokens.length ∧ (Reading.ofTokens depth tokens).grammar = .error .nesting)) := by
  refine ⟨fun junk => (ofTokens_within depth tokens h junk).1, ?_⟩
  have hat := (ofTokens_within depth tokens h []).2
  generalize Reading.ofTokens depth tokens = r at hat
  obtain ⟨rules, fault⟩ := r
  cases fault with
  | none =>
    by_cases hrules : rules.isEmpty = true
    · exact .inr (.inr (.inl (if_pos hrules)))
    · exact .inl ⟨_, if_neg hrules⟩
  | some fault =>
    have hfault : Reading.grammar ⟨rules, some fault⟩ = .error fault := rfl
    rw [hfault]
    cases hat fault rfl with
    | @syntactic t cause ht => exact .inr (.inl ⟨t, ht, cause, rfl⟩)
    | @number t _ ht hk hf =>
      obtain ⟨hdigits, hlong, rfl⟩ := integerText_of_isPlainNumeral t.value (hnumbers t ht hk) _ hf
      exact .inr (.inr (.inr (.inl ⟨t, ht, hk, hdigits, hlong, rfl⟩)))
    | nesting hdeep => exact .inr (.inr (.inr (.inr ⟨hdeep, rfl⟩)))

/-- A rule whose bracket is never closed. -/
def Token.unclosed : List Token :=
  [⟨.dollar, "$", ⟨1, 1⟩⟩, ⟨.identifier, "start", ⟨1, 2⟩⟩, ⟨.define, ":=", ⟨1, 8⟩⟩,
    ⟨.leftBracket, "[", ⟨1, 11⟩⟩, ⟨.number, "1.5", ⟨1, 12⟩⟩, ⟨.endOfText, "", ⟨1, 15⟩⟩]

theorem grammar_of_endsOnce_unclosed :
    ∃ t ∈ Token.unclosed, ∃ cause, (Reading.ofTokens Reading.nestingLimit Token.unclosed).grammar =
      .error (.syntactic cause t.position) := by
  have hends : Token.EndsOnce Token.unclosed :=
    ⟨Token.unclosed.take 5, ⟨.endOfText, "", ⟨1, 15⟩⟩, rfl, rfl, by decide⟩
  have hnumbers : ∀ t ∈ Token.unclosed, t.kind = .number →
      Text.isPlainNumeral t.value.toList = true := by decide
  have hfault : (Reading.ofTokens Reading.nestingLimit Token.unclosed).grammar =
      .error (.syntactic .expectedClosingBracket ⟨1, 15⟩) := rfl
  rcases (grammar_of_endsOnce Reading.nestingLimit Token.unclosed hends hnumbers).2 with
    ⟨g, hg⟩ | hplaced | hnone | ⟨t, _, _, _, _, hlong⟩ | ⟨_, hdeep⟩
  · cases hfault.symm.trans hg
  · exact hplaced
  · cases hfault.symm.trans hnone
  · cases hfault.symm.trans hlong
  · cases hfault.symm.trans hdeep

end ProseGrammar
