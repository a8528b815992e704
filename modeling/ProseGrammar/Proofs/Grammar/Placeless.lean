import ProseGrammar.Proofs.Grammar.Total
import ProseGrammar.Proofs.Token.Joined

/-!
# Reading without places

A reader looks at the places of tokens only where a path goes on, and there only at whether its parts
touch; it mentions them only in its faults. Two aligned lists of tokens are read side by side to
their ends: to the same rules, and to no fault or to the same fault but for its place. So the layout
of a grammar text changes nothing but places.
-/

namespace ProseGrammar

/-! ### Aligned lists -/

/-- The end of a list of tokens, where faults are compared apart from their places. -/
def Seam.placeless (e : Token) (he : e.kind = .endOfText) : Seam :=
  .ending e [] he True True (fun _ _ => True) (fun f g => f.unplaced = g.unplaced)
    (fun _ _ => rfl) fun _ _ _ => rfl

/-- Aligned lists go side by side to their ends. -/
theorem along_of_aligned (body us : List Token) (e : Token) (he : e.kind = .endOfText)
    (hbody : ∀ t ∈ body, t.kind ≠ .endOfText) (h : Token.Aligned (body ++ [e]) us) :
    ∃ e' : Token, e'.kind = .endOfText ∧
      ∀ s : Seam, s.tail = [e'] → s.start = [e'] → (∀ t u, s.Alike t u) →
        s.Along (body ++ [e]) us := by
  induction body generalizing us with
  | nil =>
    cases h with
    | @cons _ u _ _ hkind hvalue _ hnone =>
      cases hnone
      refine ⟨u, hkind ▸ he, fun s htail hstart halike => .last he htail.symm ?_⟩
      rw [hstart]
      rintro _ _ ⟨⟩
      exact ⟨hkind, hvalue, fun _ => halike e u⟩
  | cons t body ih =>
    obtain ⟨ht, hrest⟩ := List.forall_mem_cons.mp hbody
    cases h with
    | @cons _ u _ _ hkind hvalue hjoint h =>
      obtain ⟨e', he', halong⟩ := ih _ hrest h
      refine ⟨e', he', fun s htail hstart halike => ?_⟩
      exact .cons ht ⟨hkind, hvalue, fun _ => halike t u⟩ hjoint (halong s htail hstart halike)

/-! ### Grammars -/

/-- What comes of reading, apart from the place of the fault. -/
def Reading.unplaced (r : Reading) : Reading :=
  ⟨r.rules, r.fault.map Fault.unplaced⟩

theorem ofTokens_unplaced (depth : Nat) (ts us : List Token) (h : Token.Aligned ts us)
    (hends : Token.EndsOnce ts) :
    (Reading.ofTokens depth ts).unplaced = (Reading.ofTokens depth us).unplaced := by
  obtain ⟨body, e, rfl, he, hbody⟩ := hends
  obtain ⟨e', he', halong⟩ := along_of_aligned body us e he hbody h
  obtain ⟨hrules, hfaults⟩ := Seam.ofTokens_ending (s := Seam.placeless e' he') trivial trivial depth
    _ _ (halong _ rfl rfl fun _ _ => trivial) (.inl rfl) e' he' [] rfl
  unfold Reading.unplaced
  rw [hrules]
  generalize (Reading.ofTokens depth (body ++ [e])).fault = fault at hfaults ⊢
  generalize (Reading.ofTokens depth us).fault = fault' at hfaults ⊢
  cases hfaults with
  | none => rfl
  | some hanswer => exact congrArg (fun f => Reading.mk _ (some f)) hanswer

/-- A tidied text reads as the text, but for the places of faults. -/
theorem ofSource_tidied (source : String) :
    (Reading.ofSource (Text.tidied source)).unplaced = (Reading.ofSource source).unplaced := by
  have hscan := scanFrom_tidied ⟨1, 1⟩ source.toList ⟨1, 1⟩ ⟨1, 1⟩ .start trivial
  have htidied : (Text.tidied source).toList = Text.tidyFrom (.between .start) source.toList :=
    String.toList_ofList
  have hends : ∀ ts, Token.scanFrom ⟨1, 1⟩ source.toList = .ok ts → Token.EndsOnce ts := by
    intro ts hts
    obtain ⟨body, e, hbody, he, hbody', _⟩ := scanFrom_joined ⟨1, 1⟩ source.toList [] ts hts
    exact ⟨body, e, hbody, he, hbody'⟩
  unfold Reading.ofSource Token.scan
  rw [htidied]
  generalize Token.scanFrom ⟨1, 1⟩ source.toList = x at hscan hends ⊢
  generalize Token.scanFrom ⟨1, 1⟩ (Text.tidyFrom (.between .start) source.toList) = y at hscan ⊢
  cases hscan with
  | error hf => exact congrArg (fun fault => (⟨[], some fault⟩ : Reading)) hf.symm
  | @ok ts us hs => exact (ofTokens_unplaced _ ts us hs.1 (hends ts rfl)).symm

/-- Whether faults have the same message, but for the line and column in front of it. -/
def Fault.SameMessage (f g : Fault) : Prop :=
  f.message = g.message ∨
    ∃ p q text, f.message = Fault.located p text ∧ g.message = Fault.located q text

/-- Faults that are the same but for their places have messages that are the same but for these. -/
theorem sameMessage_of_unplaced {f g : Fault} (h : f.unplaced = g.unplaced) : f.SameMessage g := by
  cases f with
  | lexical cause p =>
    cases g <;> cases h
    exact .inr ⟨p, _, cause.message, rfl, rfl⟩
  | syntactic cause p =>
    cases g <;> cases h
    exact .inr ⟨p, _, cause.message, rfl, rfl⟩
  | _ => cases g <;> first | exact .inl (congrArg Fault.message h) | cases h

theorem grammar_of_unplaced (r r' : Reading) (h : r.unplaced = r'.unplaced) :
    Paired (fun g g' => g = g' ∧ r.warnings = r'.warnings)
      (fun f g => f.unplaced = g.unplaced ∧ f.SameMessage g) r.grammar r'.grammar := by
  obtain ⟨rules, fault⟩ := r
  obtain ⟨rules', fault'⟩ := r'
  obtain ⟨rfl, hfault⟩ : rules = rules' ∧ fault.map Fault.unplaced = fault'.map Fault.unplaced := by
    simpa only [Reading.unplaced, Reading.mk.injEq] using h
  cases fault with
  | some fault =>
    cases fault' with
    | some fault' =>
      have hunplaced := Option.some.inj hfault
      exact .error ⟨hunplaced, sameMessage_of_unplaced hunplaced⟩
    | none => cases hfault
  | none =>
    cases fault' with
    | some fault' => cases hfault
    | none =>
      unfold Reading.grammar
      dsimp only
      split
      · exact .error ⟨rfl, .inl rfl⟩
      · exact .ok ⟨rfl, rfl⟩

/-- Two texts that are the same when they are tidied, so that only their blanks and comments differ,
read as equal grammars with the same warnings, or both fail with the same fault and message but for
the place. -/
theorem grammar_of_tidied (source other : String) (h : Text.tidied source = Text.tidied other) :
    Paired (fun g g' => g = g' ∧
        (Reading.ofSource source).warnings = (Reading.ofSource other).warnings)
      (fun f g => f.unplaced = g.unplaced ∧ f.SameMessage g) (Reading.ofSource source).grammar
      (Reading.ofSource other).grammar := by
  refine grammar_of_unplaced _ _ ?_
  rw [← ofSource_tidied source, h, ofSource_tidied other]

/-- A greeting with blanks at the ends of its lines and a comment. -/
def Text.looseGreeting : String :=
  "$start :=  Hello $$.player.name \t! # by name\n  | \"Hi  #\" there\r"

/-- The same greeting in other blanks. -/
def Text.denseGreeting : String :=
  "  $start := Hello\t\t$$.player.name !\n| \"Hi  #\"   there#"

theorem grammar_of_tidied_greeting :
    Text.tidied Text.looseGreeting = Text.tidied Text.denseGreeting ∧
      ∃ g, (Reading.ofSource Text.looseGreeting).grammar = .ok g ∧
        (Reading.ofSource Text.denseGreeting).grammar = .ok g := by
  have h : Text.tidied Text.looseGreeting = Text.tidied Text.denseGreeting := by decide +kernel
  have hok : (Reading.ofSource Text.looseGreeting).grammar.isOk = true := by decide +kernel
  have hpaired := grammar_of_tidied _ _ h
  refine ⟨h, ?_⟩
  cases hloose : (Reading.ofSource Text.looseGreeting).grammar with
  | error fault =>
    rw [hloose] at hok
    cases hok
  | ok g =>
    rw [hloose] at hpaired
    cases hdense : (Reading.ofSource Text.denseGreeting).grammar with
    | error fault =>
      rw [hdense] at hpaired
      cases hpaired
    | ok g' =>
      rw [hdense] at hpaired
      cases hpaired with
      | ok hsame => exact ⟨g, rfl, congrArg Except.ok hsame.1.symm⟩

end ProseGrammar
