import ProseGrammar.Proofs.Evaluation.Matching
import ProseGrammar.Proofs.Evaluation.Parts
import ProseGrammar.Proofs.Grammar.Fitting

/-!
# Grammars that draw nothing

A draw decides between the alternatives of a rule or between the items of a list. A list grows out
of a list only: as long as there is none in the knowledge and in the variables, at no depth, no step
of an evaluation makes one, whatever it reads, adds up or writes. If every rule has one alternative
besides, nothing is ever drawn, and an execution gives the same whatever its draws are.
-/

namespace ProseGrammar

/-! ### Values without lists -/

mutual

/-- Whether there is no list in a value at any depth. -/
def Value.isListFree : Value → Bool
  | .list _ => false
  | .object entries => entriesListFree entries
  | .weighted value _ => value.isListFree
  | _ => true

def entriesListFree : List (String × Value) → Bool
  | [] => true
  | (_, value) :: rest => value.isListFree && entriesListFree rest

end

theorem entriesListFree_iff (t : List (String × Value)) :
    entriesListFree t = true ↔ ∀ entry ∈ t, entry.2.isListFree = true := by
  induction t with
  | nil => simp [entriesListFree]
  | cons entry t ih =>
    obtain ⟨key, value⟩ := entry
    simp only [entriesListFree, Bool.and_eq_true, ih, List.forall_mem_cons]

theorem hereditary_isListFree :
    Value.Hereditary (fun v => v.isListFree = true) (fun _ => True) False where
  null := rfl
  bool _ := rfl
  number _ := rfl
  text _ := rfl
  list _ := iff_of_false (fun h => nomatch h) fun h => h.1
  object t := by
    have h : (Value.object t).isListFree = true ↔ _ := entriesListFree_iff t
    simpa only [true_and] using h
  weighted _ _ h := h

/-! ### Contexts -/

variable {σ τ : Type}

/-- Whether there is no list in the knowledge and in the variables of a context. -/
def Context.ListFree (c : Context σ) : Prop :=
  c.Holds (fun _ => True) fun v => v.isListFree = true

theorem assign_listFree {target : Reference} {op : AssignOp} {value : Value} {c : Context σ}
    {o : Outcome σ} (hc : c.ListFree) (hvalue : value.isListFree = true)
    (h : assign target op value c = .ok o) : o.value.isListFree = true ∧ o.context.ListFree :=
  hereditary_isListFree.assign hc hvalue (fun _ _ => trivial) h

/-! ### Steps under other draws -/

/-- A context with other draws. -/
def Context.withDraws (draws : τ) (c : Context σ) : Context τ :=
  ⟨c.knowledge, c.frame, draws⟩

def Outcome.withDraws (draws : τ) (o : Outcome σ) : Outcome τ :=
  ⟨o.value, o.context.withDraws draws⟩

theorem assign_draws {target : Reference} {op : AssignOp} {value : Value} {c : Context σ}
    {o : Outcome σ} (h : assign target op value c = .ok o) : o.context.draws = c.draws := by
  unfold assign at h
  split at h
  · obtain ⟨assigned, t, t', -, ho, -, -⟩ := assignKnowledge_ok h
    rw [ho]
  · obtain ⟨name, path, entry, -, -, ho⟩ := assignVariable_ok h
    rw [ho]

theorem assign_withDraws (target : Reference) (op : AssignOp) (value : Value) (c : Context σ)
    (draws : τ) : assign target op value (c.withDraws draws) =
      Outcome.withDraws draws <$> assign target op value c := by
  unfold assign assignKnowledge assignVariable Context.withDraws
  dsimp only
  split
  · split <;>
    · simp only [map_eq_pure_bind, bind_assoc, pure_bind]
      rfl
  · split
    · rfl
    · simp only [map_eq_pure_bind, bind_assoc, pure_bind]
      rfl
    · split <;>
      · simp only [map_eq_pure_bind, bind_assoc, pure_bind]
        rfl

/-- Where there is no list, a reference to knowledge draws nothing. -/
theorem readKnowledge_withDraws [DrawSource σ] [DrawSource τ] (path : List String)
    {c : Context σ} (hc : c.ListFree) (draws : τ) :
    readKnowledge path (c.withDraws draws) = Outcome.withDraws draws <$> readKnowledge path c := by
  unfold readKnowledge Context.withDraws
  dsimp only
  split
  · rfl
  next items hitems => cases hereditary_isListFree.resolve hc.knowledge hitems
  · rfl

theorem readKnowledge_listFree [DrawSource σ] {path : List String} {c : Context σ} {o : Outcome σ}
    (hc : c.ListFree) (h : readKnowledge path c = .ok o) :
    o.value.isListFree = true ∧ o.context = c := by
  unfold readKnowledge at h
  split at h
  · cases h
  next items hitems => cases hereditary_isListFree.resolve hc.knowledge hitems
  next value hvalue _ =>
    cases h
    exact ⟨hereditary_isListFree.resolve hc.knowledge ‹_›, rfl⟩

/-! ### The same but for the draws -/

/-- Two contexts without lists that differ at most in the draws, of which none is taken. -/
structure Context.Undrawn (draws : σ) (draws' : τ) (c : Context σ) (d : Context τ) : Prop where
  listFree : c.ListFree
  draws : c.draws = draws
  other : d = c.withDraws draws'

/-- Values without lists, all references, and the rules that have one alternative. -/
def Vocabulary.drawless : Vocabulary :=
  ⟨fun value => value.isListFree = true, fun _ => True, fun _ => True,
    fun r => ∃ a, r.alternatives = [a], fun _ => False⟩

theorem outcomes_of_withDraws {draws : σ} {draws' : τ} {r : Except Fault (Outcome σ)}
    (h : ∀ o, r = .ok o → o.value.isListFree = true ∧ o.context.ListFree ∧
      o.context.draws = draws) :
    Paired (Outcome.Matches .drawless (Context.Undrawn draws draws')) Eq r
      (Outcome.withDraws draws' <$> r) := by
  cases r with
  | error fault => exact .error rfl
  | ok o =>
    obtain ⟨hvalue, hcontext, hdraws⟩ := h o rfl
    exact .ok ⟨rfl, hvalue, hcontext, hdraws, rfl⟩

theorem simulation_undrawn [DrawSource σ] [DrawSource τ] (draws : σ) (draws' : τ) :
    Simulation .drawless (Context.Undrawn draws draws') Eq where
  fault _ := rfl
  respelled := False.elim
  text _ := rfl
  operator := hereditary_isListFree.apply
  frame hcd := by
    rw [hcd.other]
    rfl
  bound hcd h := hereditary_isListFree.readVariable hcd.listFree h
  pick := by
    rintro c d r hcd ⟨a, ha⟩
    have hpick : ∀ {ρ : Type} [DrawSource ρ] (draws : ρ), r.pick? draws = .ok (some a, draws) := by
      intro ρ _ draws
      rw [Rule.pick?, ha]
    rw [hpick, hpick]
    exact .ok ⟨rfl, hcd⟩
  read := by
    rintro c _ target ⟨hc, hdraws, rfl⟩ _ _ _
    refine blameReference_pairs (fun _ => rfl) target ?_
    rw [readKnowledge_withDraws _ hc]
    refine outcomes_of_withDraws fun o ho => ?_
    obtain ⟨hvalue, hcontext⟩ := readKnowledge_listFree hc ho
    rw [hcontext]
    exact ⟨hvalue, hc, hdraws⟩
  assign := by
    rintro c _ target op w ⟨hc, hdraws, rfl⟩ _ hw
    rw [assign_withDraws]
    refine outcomes_of_withDraws fun o ho => ?_
    obtain ⟨hvalue, hcontext⟩ := assign_listFree hc hw ho
    exact ⟨hvalue, hcontext, (assign_draws ho).trans hdraws⟩

/-! ### Trees of one alternative -/

theorem Value.isListFree_of_isLiteral {value : Value} (h : value.isLiteral = true) :
    value.isListFree = true := by
  cases value <;> first | rfl | cases h

mutual

/-- What the syntax has a text for holds no list and no rule. -/
theorem Node.matches_of_fits (n : Node) (place : Place) (hf : n.fits place = true) :
    n.Matches .drawless n := by
  cases n with
  | literal value => exact .literal (Value.isListFree_of_isLiteral hf)
  | rule name => exact .rule trivial
  | reference target => exact .reference trivial
  | assign target op e =>
    simp only [Node.fits, Bool.and_eq_true] at hf
    exact .assign trivial (Node.matches_of_fits e .expression hf.2)
  | binary l op r =>
    simp only [Node.fits, Bool.and_eq_true] at hf
    exact .binary (Node.matches_of_fits l .operand hf.1.1) (Node.matches_of_fits r .operand hf.2)
  | conditional a b e =>
    simp only [Node.fits, Bool.and_eq_true] at hf
    exact .conditional (Node.matches_of_fits a .expression hf.1.1)
      (Node.matches_of_fits b .branch hf.1.2) (Node.matches_of_fits e .otherwise hf.2)
  | silent e => exact .silent (Node.matches_of_fits e .expression hf)
  | group ns prose =>
    simp only [Node.fits, Bool.and_eq_true] at hf
    exact .group (nodesMatch_of_fits ns hf.2)
  | alternative a => cases hf
  | definition r => cases hf
  | missing => exact .missing

theorem nodesMatch_of_fits (ns : List Node) (hf : fitAll ns = true) :
    NodesMatch .drawless ns ns := by
  cases ns with
  | nil => exact .nil
  | cons n ns =>
    simp only [fitAll, Bool.and_eq_true] at hf
    exact .cons (Node.matches_of_fits n .expression hf.1) (nodesMatch_of_fits ns hf.2)

end

theorem Grammar.matches_of_fits {g : Grammar} (hf : g.fits = true)
    (hsingle : ∀ entry ∈ g.rules, entry.2.alternatives.length = 1) : g.Matches .drawless g := by
  intro name _
  cases hr : g.rule? name with
  | none => exact .none
  | some r =>
    have hmem : (name, r) ∈ g.rules := Table.mem_of_get? hr
    simp only [Grammar.fits, Bool.and_eq_true, List.all_eq_true] at hf
    have hfits : r.fits = true := (hf.2 _ hmem).2
    have hlength : r.alternatives.length = 1 := hsingle _ hmem
    obtain ⟨name, alternatives⟩ := r
    obtain ⟨⟨ns, weight⟩, rfl⟩ := List.length_eq_one_iff.mp hlength
    simp only [Rule.fits, Alternative.fits, List.all_cons, Bool.and_eq_true] at hfits
    have hns : NodesMatch .drawless ns ns := nodesMatch_of_fits ns hfits.2.1.1.1.1.1
    exact .some (.mk ⟨_, rfl⟩ (.cons (.mk hns) .nil))

/-! ### Executions -/

/-- A seed that has a text is recorded, and that is all that becomes of it. -/
theorem executeWith_seed [DrawSource σ] (g : Generator) (knowledge : Value) (draws : σ) {seed : Value}
    (hseed : ∃ s, seed.inspect = .ok s) :
    g.executeWith knowledge seed draws = g.executeWith knowledge .null draws := by
  obtain ⟨s, hs⟩ := hseed
  have hnull : Value.null.inspect = .ok "None" := rfl
  unfold Generator.executeWith Generator.finish
  rw [hs, hnull]
  rfl

theorem Value.inspect_ok_of_lt {n : Int} (h : n.natAbs < Decimal.digitBound) :
    ∃ s, (Value.int n).inspect = .ok s := by
  show ∃ s, Decimal.integerText n = .ok s
  rw [Decimal.integerText, if_pos h]
  exact ⟨_, rfl⟩

/-- An execution of a grammar that was read from a text and has one alternative a rule, on knowledge
without lists, draws nothing: it gives the same whatever the draws are, a run leaves them as they
were, and so it gives the same for any two seeds that have a decimal text. -/
theorem execution_drawless (source : String) (ts : List Token) (depth : Nat) (g : Grammar)
    (hscan : Token.scan source = .ok ts) (hread : (Reading.ofTokens depth ts).grammar = .ok g)
    (hsingle : ∀ entry ∈ g.rules, entry.2.alternatives.length = 1) (settings : Settings)
    (k : Knowledge) (hk : (Value.object k).isListFree = true) :
    (∀ {σ τ : Type} [DrawSource σ] [DrawSource τ] (draws : σ) (draws' : τ) (seed : Value),
      (Generator.mk g settings).executeWith (.object k) seed draws =
        (Generator.mk g settings).executeWith (.object k) seed draws') ∧
    (∀ {σ : Type} [DrawSource σ] (draws : σ) (o : Outcome σ),
      g.run settings.depthLimit ⟨.object k, [], draws⟩ = .ok o → o.context.draws = draws) ∧
    ∀ seed seed' fresh fresh' : Int, seed.natAbs < Decimal.digitBound →
      seed'.natAbs < Decimal.digitBound →
      (Generator.mk g settings).execute (.object k) (.int seed) fresh =
        (Generator.mk g settings).execute (.object k) (.int seed') fresh' := by
  have hmatches : g.Matches .drawless g :=
    Grammar.matches_of_fits (fits_of_reading source ts depth g hscan hread) hsingle
  have hcontexts : ∀ {σ τ : Type} (draws : σ) (draws' : τ),
      Context.Undrawn draws draws' ⟨.object k, [], draws⟩ ⟨.object k, [], draws'⟩ :=
    fun draws draws' => ⟨⟨hk, fun _ h => nomatch h⟩, rfl, rfl⟩
  have hdraws : ∀ {σ τ : Type} [DrawSource σ] [DrawSource τ] (draws : σ) (draws' : τ)
      (seed : Value), (Generator.mk g settings).executeWith (.object k) seed draws =
        (Generator.mk g settings).executeWith (.object k) seed draws' := by
    intro σ τ _ _ draws draws' seed
    have hpaired := executeWith_matches (simulation_undrawn draws draws') hmatches trivial
      (fun hcd => by rw [hcd.other]; rfl) settings (.object k) draws draws'
      (fun k' hk' => by cases hk'; exact hcontexts draws draws') seed
    exact eq_of_paired hpaired
  refine ⟨hdraws, ?_, ?_⟩
  · intro σ _ draws o ho
    have hpaired := Grammar.run_matches (simulation_undrawn draws draws) hmatches trivial
      settings.depthLimit ⟨k, rfl⟩ ⟨k, rfl⟩ (hcontexts draws draws)
    rw [ho] at hpaired
    cases hpaired with
    | ok hop => exact hop.context.draws
  · intro seed seed' fresh fresh' hseed hseed'
    have hrecorded : ∀ n fresh : Int, n.natAbs < Decimal.digitBound →
        (Generator.mk g settings).execute (.object k) (.int n) fresh =
          (Generator.mk g settings).executeWith (.object k) .null (SeededRandom.ofSeed 0) := by
      intro n fresh hn
      have hexecute : (Generator.mk g settings).execute (.object k) (.int n) fresh =
        (Generator.mk g settings).executeWith (.object k) (.int n) (SeededRandom.ofSeed n) := rfl
      rw [hexecute, hdraws _ (SeededRandom.ofSeed 0)]
      exact executeWith_seed _ _ _ (Value.inspect_ok_of_lt hn)
    rw [hrecorded seed fresh hseed, hrecorded seed' fresh' hseed']

/-- A text that counts visits and greets by a name. -/
def Text.doorkeeper : String :=
  "$start := [$$.visits += 1] $greeting\n$greeting := Hello [$$.guest.name]"

theorem execution_drawless_doorkeeper :
    ∃ ts g, Token.scan Text.doorkeeper = .ok ts ∧ (Reading.ofTokens 5 ts).grammar = .ok g ∧
      ∀ seed seed' : Int, seed.natAbs < Decimal.digitBound → seed'.natAbs < Decimal.digitBound →
        (Generator.mk g .standard).execute (.object [("visits", .text "1"),
            ("guest", .object [("name", .weighted (.text "Ann") 2)])]) (.int seed) 0 =
          (Generator.mk g .standard).execute (.object [("visits", .text "1"),
            ("guest", .object [("name", .weighted (.text "Ann") 2)])]) (.int seed') 0 := by
  obtain ⟨ts, g, hscan, hread, hcheck⟩ := exists_reading Text.doorkeeper 5
    (fun g => g.rules.all fun entry => entry.2.alternatives.length = 1) (by decide +kernel)
  have hsingle : ∀ entry ∈ g.rules, entry.2.alternatives.length = 1 := by
    simpa [List.all_eq_true] using hcheck
  refine ⟨ts, g, hscan, hread, fun seed seed' hseed hseed' => ?_⟩
  exact (execution_drawless Text.doorkeeper ts 5 g hscan hread hsingle .standard _ rfl).2.2 seed seed'
    0 0 hseed hseed'

/-- A seed without a text ends an execution that draws nothing, and has come to its result, with a
fault. -/
theorem execute_wideSeed :
    ∃ ts g, Token.scan "$start := hi" = .ok ts ∧ (Reading.ofTokens 5 ts).grammar = .ok g ∧
      (∀ entry ∈ g.rules, entry.2.alternatives.length = 1) ∧
      (Value.object []).isListFree = true ∧
      (Generator.mk g .standard).execute (.object []) (.int 1) 0 ≠
        (Generator.mk g .standard).execute (.object []) (.int Decimal.digitBound) 0 := by
  obtain ⟨ts, g, hscan, hread, hcheck⟩ := exists_reading "$start := hi" 5
    (fun g => (g.rules.all fun entry => entry.2.alternatives.length = 1) &&
      ((Generator.mk g .standard).execute (.object []) (.int 1) 0).isOk &&
      !((Generator.mk g .standard).execute (.object []) (.int Decimal.digitBound) 0).isOk)
    (by decide +kernel)
  simp only [Bool.and_eq_true, Bool.not_eq_true', List.all_eq_true, decide_eq_true_eq] at hcheck
  obtain ⟨⟨hsingle, hok⟩, hfails⟩ := hcheck
  refine ⟨ts, g, hscan, hread, hsingle, rfl, fun hsame => ?_⟩
  rw [hsame, hfails] at hok
  cases hok

end ProseGrammar
