import Mathlib.Data.Set.Defs
import ProseGrammar.Proofs.Evaluation.Paired

/-!
# What executions do not depend on

Executions of matching grammars that start from the same context stay in the same contexts, so they
give the same wherever the rules that matter are the same ones. Rules that no reference leads to
from the rule `start` do not matter, nor does their order. A limit on nested expansions that is not
reached does not matter. Whether a name is spelled as that of a rule or as that of a variable does
not matter either, but for the fault that reports an undefined one.
-/

namespace ProseGrammar

variable {σ : Type} [DrawSource σ]

/-! ### The same contexts -/

omit [DrawSource σ] in
theorem outcomes_refl {v : Vocabulary} {F : Fault → Fault → Prop} (hvalue : ∀ w, v.value w)
    (hF : ∀ f, F f f) (r : Except Fault (Outcome σ)) : Paired (Outcome.Matches v Eq) F r r := by
  refine paired_mono (paired_refl hF r) fun o p hop => ?_
  exact ⟨congrArg Outcome.value hop, hvalue _, congrArg Outcome.context hop⟩

/-- In the same context the same is picked, read and assigned. -/
theorem simulation_eq {v : Vocabulary} {F : Fault → Fault → Prop} (hvalue : ∀ w, v.value w)
    (hF : ∀ f, F f f) (hrespelled : ∀ {name}, v.respells name →
      F (.evaluation (.undefined name) (some ("$" ++ name)))
        (.evaluation (.unresolved ("$" ++ name) (.undefined name)) (some ("$" ++ name)))) :
    Simulation v (Eq : Context σ → Context σ → Prop) F where
  fault := hF
  respelled := hrespelled
  text _ := hvalue _
  operator _ := hvalue _
  frame hcd := congrArg Context.frame hcd
  bound _ _ := hvalue _
  pick := by
    rintro c _ r rfl _
    refine paired_mono (paired_refl hF _) fun p q hpq => ?_
    rw [hpq]
    exact ⟨rfl, rfl⟩
  read := by
    rintro c _ target rfl _ _ _
    exact outcomes_refl hvalue hF _
  assign := by
    rintro c _ target op w rfl _ _
    exact outcomes_refl hvalue hF _

/-! ### Rules out of reach -/

/-- Whether a reference, if it is a name alone, has one of a set of names. -/
def Reference.NamesIn (names : Set String) (t : Reference) : Prop :=
  ∀ name, t = ⟨[name], false⟩ → name ∈ names

/-- Whether the rules that a grammar has under some names refer to nothing else by name, neither as
to a rule nor as to a variable. -/
def Grammar.ClosedUnder (names : Set String) (g : Grammar) : Prop :=
  ∀ name ∈ names, ∀ r, g.rule? name = some r → ∀ callee, ⟨[callee], false⟩ ∈ r.reads →
    callee ∈ names

theorem Grammar.matches_of_closedUnder {names : Set String} {g h : Grammar}
    (hclosed : g.ClosedUnder names) (hagree : ∀ name ∈ names, g.rule? name = h.rule? name) :
    g.Matches (.within (Reference.NamesIn names) fun _ => True) h := by
  refine Grammar.matches_within fun name hname => ?_
  have hmem : name ∈ names := hname name rfl
  refine ⟨hagree name hmem, fun r hr => ⟨?_, fun _ _ => trivial⟩⟩
  rintro t ht callee rfl
  exact hclosed name hmem r hr callee ht

/-- Two grammars that have the same rules under a set of names that is closed under reference and
has the name `start` give the same in every execution, whatever other rules they have. -/
theorem executeWith_of_closedUnder {names : Set String} {g h : Grammar} (hstart : "start" ∈ names)
    (hclosed : g.ClosedUnder names) (hagree : ∀ name ∈ names, g.rule? name = h.rule? name)
    (settings : Settings) (knowledge seed : Value) (draws : σ) :
    (Generator.mk g settings).executeWith knowledge seed draws =
      (Generator.mk h settings).executeWith knowledge seed draws := by
  have hreads : Reference.NamesIn names ⟨["start"], false⟩ := by
    rintro name ⟨⟩
    exact hstart
  have S : Simulation (.within (Reference.NamesIn names) fun _ => True)
      (Eq : Context σ → Context σ → Prop) Eq :=
    simulation_eq (fun _ => trivial) (fun _ => rfl) False.elim
  exact eq_of_paired (executeWith_matches S (Grammar.matches_of_closedUnder hclosed hagree) hreads
    (fun hcd => congrArg Context.knowledge hcd) settings knowledge draws draws (fun _ _ => rfl) seed)

/-- Greets someone whose name a second rule gives. -/
def Grammar.greetsByName : Grammar :=
  ⟨[("start", ⟨"start", [⟨[.literal (.text "Hello"), .rule "name"], .float 1⟩]⟩),
    ("name", ⟨"name", [⟨[.literal (.text "Ann")], .float 1⟩]⟩)]⟩

/-- The same rules in another order, with one that nothing refers to. -/
def Grammar.greetsAmongOthers : Grammar :=
  ⟨[("name", ⟨"name", [⟨[.literal (.text "Ann")], .float 1⟩]⟩),
    ("title", ⟨"title", [⟨[.rule "start"], .float 1⟩, ⟨[.rule "none"], .float 2⟩]⟩),
    ("start", ⟨"start", [⟨[.literal (.text "Hello"), .rule "name"], .float 1⟩]⟩)]⟩

theorem executeWith_greetsAmongOthers :
    Grammar.greetsByName.ClosedUnder {"start", "name"} ∧
    (Generator.mk Grammar.greetsByName .standard).executeWith .null .null (DrawScript.mk 0 []) =
      (Generator.mk Grammar.greetsAmongOthers .standard).executeWith .null .null
        (DrawScript.mk 0 []) := by
  have hclosed : Grammar.greetsByName.ClosedUnder {"start", "name"} := by
    rintro name (rfl | rfl) r hr callee hcallee
    · obtain rfl := Option.some.inj hr
      simp [Rule.reads, alternativeReads, Alternative.reads, nodeReads, Node.reads] at hcallee
      exact .inr hcallee
    · obtain rfl := Option.some.inj hr
      simp [Rule.reads, alternativeReads, Alternative.reads, nodeReads, Node.reads] at hcallee
  refine ⟨hclosed, executeWith_of_closedUnder (.inl rfl) hclosed ?_ _ _ _ _⟩
  rintro name (rfl | rfl)
  · rfl
  · rfl

/-! ### Limits that are not reached -/

/-- An execution that does not end because the limit on nested expansions is reached gives the same
under every higher limit. -/
theorem executeWith_of_raised (g : Grammar) {limit higher : Nat} (hle : limit ≤ higher)
    (default knowledge seed : Value) (draws : σ)
    (hfinished : ∀ path, (Generator.mk g ⟨⟨limit, 0⟩, default⟩).executeWith knowledge seed draws ≠
      .error (.evaluation (.depthLimit limit) path)) :
    (Generator.mk g ⟨⟨higher, 0⟩, default⟩).executeWith knowledge seed draws =
      (Generator.mk g ⟨⟨limit, 0⟩, default⟩).executeWith knowledge seed draws := by
  have hmatches : g.Matches (.within (fun _ => True) fun _ => True) g :=
    Grammar.matches_within fun _ _ =>
      ⟨rfl, fun _ _ => ⟨fun _ _ => trivial, fun _ _ => trivial⟩⟩
  have hlevels : (DepthLimit.mk higher 0).levels =
      (DepthLimit.mk limit 0).levels + (higher - limit) := by
    simp only [DepthLimit.levels]
    omega
  have hfault : ∀ name, ∃ path,
      (DepthLimit.mk limit 0).fault name = .evaluation (.depthLimit limit) path :=
    fun name => ⟨_, rfl⟩
  have S : Simulation (.within (fun _ => True) fun _ => True)
      (Eq : Context σ → Context σ → Prop) Eq :=
    simulation_eq (fun _ => trivial) (fun _ => rfl) False.elim
  have hunless := executeWith_matches_raised
    (E := fun fault => ∃ path, fault = .evaluation (.depthLimit limit) path) S hmatches trivial
    hlevels (.inl hfault) (fun hcd => congrArg Context.knowledge hcd) knowledge
    draws draws (fun _ _ => rfl) default seed
  refine (eq_of_paired (paired_of_unless hunless ?_)).symm
  rintro fault ⟨path, rfl⟩
  exact hfinished path

theorem executeWith_greetsByName_raised :
    (Generator.mk Grammar.greetsByName ⟨⟨3, 0⟩, .null⟩).executeWith .null .null
        (DrawScript.mk 0 []) =
      (Generator.mk Grammar.greetsByName ⟨⟨2, 0⟩, .null⟩).executeWith .null .null
        (DrawScript.mk 0 []) := by
  have hok : ((Generator.mk Grammar.greetsByName ⟨⟨2, 0⟩, .null⟩).executeWith .null .null
      (DrawScript.mk 0 [])).isOk = true := by
    decide +kernel
  refine executeWith_of_raised Grammar.greetsByName (by decide) _ _ _ _ fun path h => ?_
  rw [h] at hok
  cases hok

/-! ### Names that are respelled -/

/-- Everything there is, and every name may be respelled. -/
def Vocabulary.full : Vocabulary :=
  ⟨fun _ => True, fun _ => True, fun _ => True, fun _ => True, fun _ => True⟩

/-- Whether a grammar comes of another one if some of the names that stand in it as those of rules
are put there as those of variables. -/
def Grammar.Respells (g h : Grammar) : Prop :=
  List.Forall₂ (fun e e' => e.1 = e'.1 ∧ e.2.Matches .full e'.2) g.rules h.rules

/-- Two faults are the same, or both report that a name is not defined: the first one as the name of
a rule, the second one as that of a variable. -/
def Fault.Respelled (f f' : Fault) : Prop :=
  f = f' ∨ ∃ name, f = .evaluation (.undefined name) (some ("$" ++ name)) ∧
    f' = .evaluation (.unresolved ("$" ++ name) (.undefined name)) (some ("$" ++ name))

theorem Grammar.Respells.matches {g h : Grammar} (hgh : g.Respells h) : g.Matches .full h := by
  obtain ⟨rules⟩ := g
  obtain ⟨rules'⟩ := h
  intro name _
  unfold Grammar.rule?
  unfold Grammar.Respells at hgh
  dsimp only at hgh ⊢
  induction hgh with
  | nil => exact .none
  | @cons e e' rest rest' hentry hrest ih =>
    obtain ⟨key, r⟩ := e
    obtain ⟨key', r'⟩ := e'
    obtain ⟨rfl, hr⟩ := hentry
    simp only [Table.get?]
    split
    · exact .some hr
    · exact ih

/-- Executions of a grammar and of a respelled one succeed alike, with the same output and the same
knowledge, or fail alike but for how they report an undefined name. -/
theorem executeWith_respelled {g h : Grammar} (hgh : g.Respells h) (settings : Settings)
    (knowledge seed : Value) (draws : σ) :
    Paired Eq Fault.Respelled ((Generator.mk g settings).executeWith knowledge seed draws)
      ((Generator.mk h settings).executeWith knowledge seed draws) := by
  have S : Simulation .full (Eq : Context σ → Context σ → Prop) Fault.Respelled :=
    simulation_eq (fun _ => trivial) (fun _ => .inl rfl) fun _ => .inr ⟨_, rfl, rfl⟩
  exact executeWith_matches S hgh.matches trivial (fun hcd => congrArg Context.knowledge hcd)
    settings knowledge draws draws (fun _ _ => rfl) seed

/-- Greets someone whose name a variable gives, or else a rule. -/
def Grammar.greetsByVariable : Grammar :=
  ⟨[("start", ⟨"start",
      [⟨[.literal (.text "Hello"), .reference ⟨["name"], false⟩], .float 1⟩]⟩),
    ("name", ⟨"name", [⟨[.literal (.text "Ann")], .float 1⟩]⟩)]⟩

theorem executeWith_greetsByVariable :
    Grammar.greetsByName.Respells Grammar.greetsByVariable ∧
    Paired Eq Fault.Respelled
      ((Generator.mk Grammar.greetsByName .standard).executeWith .null .null (DrawScript.mk 0 []))
      ((Generator.mk Grammar.greetsByVariable .standard).executeWith .null .null
        (DrawScript.mk 0 [])) := by
  have hrespells : Grammar.greetsByName.Respells Grammar.greetsByVariable := by
    have hstart : NodesMatch .full [.literal (.text "Hello"), .rule "name"]
        [.literal (.text "Hello"), .reference ⟨["name"], false⟩] :=
      .cons (.literal trivial) (.cons (.respelled trivial trivial) .nil)
    have hname : NodesMatch .full [.literal (.text "Ann")] [.literal (.text "Ann")] :=
      .cons (.literal trivial) .nil
    exact .cons ⟨rfl, .mk trivial (.cons (.mk hstart) .nil)⟩
      (.cons ⟨rfl, .mk trivial (.cons (.mk hname) .nil)⟩ .nil)
  exact ⟨hrespells, executeWith_respelled hrespells _ _ _ _⟩

end ProseGrammar
