import ProseGrammar.Proofs.Evaluation.Ending
import ProseGrammar.Proofs.Evaluation.Faults
import ProseGrammar.Proofs.Evaluation.OnStack
import ProseGrammar.Proofs.Evaluation.Paired

/-!
# Ranked grammars

The rules of a grammar are ranked if each has a greater rank than the rules it refers to. Then
expansions stand inside each other no deeper than the rank of the first rule goes down, so an
execution does not reach the depth limit if the limit leaves more levels than that. References that
stand side by side do not add up, since each is expanded at the depth of the body that it stands in.

A run on a stack may still be given up, and says so as one that reaches the limit: operands stand
inside each other too, and for every stack there is a sum that is too long for it.
-/

namespace ProseGrammar

variable {σ : Type}

/-! ### Nested rules -/

mutual

/-- How many rules stand inside each other in the places of expressions of a node. -/
def Node.nesting : Node → Nat
  | .literal _ | .rule _ | .reference _ | .missing => 0
  | .assign _ _ expression => expression.nesting
  | .binary left _ right => max left.nesting right.nesting
  | .conditional condition whenTrue whenFalse =>
    max condition.nesting (max whenTrue.nesting whenFalse.nesting)
  | .silent expression => expression.nesting
  | .group members _ => nodeNesting members
  | .alternative a => a.nesting
  | .definition r => r.nesting + 1

def Alternative.nesting : Alternative → Nat
  | ⟨elements, _⟩ => nodeNesting elements

def Rule.nesting : Rule → Nat
  | ⟨_, alternatives⟩ => alternativeNesting alternatives

def nodeNesting : List Node → Nat
  | [] => 0
  | n :: rest => max n.nesting (nodeNesting rest)

def alternativeNesting : List Alternative → Nat
  | [] => 0
  | a :: rest => max a.nesting (alternativeNesting rest)

end

theorem nesting_of_alternative {alternatives : List Alternative} {a : Alternative}
    (ha : a ∈ alternatives) : nodeNesting a.elements ≤ alternativeNesting alternatives := by
  induction alternatives with
  | nil => cases ha
  | cons b rest ih =>
    rw [alternativeNesting]
    rcases List.mem_cons.mp ha with rfl | hr
    · obtain ⟨elements, weight⟩ := a
      exact Nat.le_max_left _ _
    · exact Nat.le_trans (ih hr) (Nat.le_max_right _ _)

/-! ### Ranks -/

/-- A grammar is ranked if each rule has a greater rank than the rules of the grammar whose names it
reads, where a target of an assignment is not read. A rule that stands in the place of an expression
takes up a rank itself; the syntax has no such rules. -/
structure Grammar.RankedBy (g : Grammar) (rank : String → Nat) : Prop where
  lower : ∀ {name r callee}, g.rule? name = some r → ⟨[callee], false⟩ ∈ r.reads →
    (g.rule? callee).isSome = true → rank callee + r.nesting < rank name
  nested : ∀ {name r}, g.rule? name = some r → r.nesting ≤ rank name

/-- Where no rules stand in the places of expressions, only the names that are read count. -/
theorem Grammar.rankedBy_iff_of_flat {g : Grammar} {rank : String → Nat}
    (hflat : ∀ {name r}, g.rule? name = some r → r.nesting = 0) :
    g.RankedBy rank ↔ ∀ {name r callee}, g.rule? name = some r → ⟨[callee], false⟩ ∈ r.reads →
      (g.rule? callee).isSome = true → rank callee < rank name := by
  refine ⟨fun h name r callee hr hread hrule => ?_, fun h => ⟨fun hr hread hrule => ?_, fun hr => ?_⟩⟩
  · have hlower := h.lower hr hread hrule
    omega
  · rw [hflat hr]
    exact h hr hread hrule
  · rw [hflat hr]
    exact Nat.zero_le _

/-- A check that a grammar is ranked, entry by entry. -/
def Grammar.isRankedBy (g : Grammar) (rank : String → Nat) : Bool :=
  g.rules.all fun entry => decide (entry.2.nesting ≤ rank entry.1) &&
    entry.2.reads.all fun target =>
      match target with
      | ⟨[callee], false⟩ =>
        (g.rule? callee).isNone || decide (rank callee + entry.2.nesting < rank entry.1)
      | _ => true

theorem Grammar.rankedBy_of_isRankedBy {g : Grammar} {rank : String → Nat}
    (h : g.isRankedBy rank = true) : g.RankedBy rank := by
  have hentry : ∀ {name r}, g.rule? name = some r → r.nesting ≤ rank name ∧
      ∀ callee, ⟨[callee], false⟩ ∈ r.reads →
        g.rule? callee = none ∨ rank callee + r.nesting < rank name := by
    intro name r hr
    have hmem := List.all_eq_true.mp h (name, r) (Table.mem_of_get? hr)
    simp only [Bool.and_eq_true, decide_eq_true_eq, List.all_eq_true] at hmem
    refine ⟨hmem.1, fun callee hread => ?_⟩
    simpa using hmem.2 ⟨[callee], false⟩ hread
  refine ⟨fun hr hread hrule => ?_, fun hr => (hentry hr).1⟩
  rcases (hentry hr).2 _ hread with hnone | hlower
  · rw [hnone] at hrule
    cases hrule
  · exact hlower

namespace Job

def reads : Job σ → List Reference
  | node _ n _ => n.reads
  | elements ns _ _ => nodeReads ns
  | list ns _ _ => nodeReads ns
  | branch ns _ _ _ => nodeReads ns
  | rule r _ => r.reads

/-- How many rules of a job stand inside each other, itself included. -/
def nesting : Job σ → Nat
  | node _ n _ => n.nesting
  | elements ns _ _ => nodeNesting ns
  | list ns _ _ => nodeNesting ns
  | branch ns _ _ _ => nodeNesting ns
  | rule r _ => r.nesting + 1

/-- Whether a job can be done in a number of levels: its own rules take one each, and the rules that
it refers to from inside of them as many as their ranks say, and one more. -/
structure FitsIn (g : Grammar) (rank : String → Nat) (levels : Nat) (job : Job σ) : Prop where
  called : ∀ {callee}, ⟨[callee], false⟩ ∈ job.reads → (g.rule? callee).isSome = true →
    rank callee + job.nesting < levels
  nested : job.nesting ≤ levels

variable {g : Grammar} {rank : String → Nat} {levels : Nat}

theorem FitsIn.part {job part : Job σ} (h : job.FitsIn g rank levels)
    (hreads : part.reads ⊆ job.reads) (hnesting : part.nesting ≤ job.nesting) :
    part.FitsIn g rank levels where
  called hread hrule := by
    have hcalled := h.called (hreads hread) hrule
    omega
  nested := Nat.le_trans hnesting h.nested

theorem fitsIn_rule (hrank : g.RankedBy rank) {name : String} {r : Rule}
    (hr : g.rule? name = some r) (c : Context σ) (h : rank name < levels) :
    (Job.rule r c).FitsIn g rank levels where
  called hread hrule := by
    have hlower := hrank.lower hr hread hrule
    show rank _ + (r.nesting + 1) < levels
    omega
  nested := by
    have hnested := hrank.nested hr
    show r.nesting + 1 ≤ levels
    omega

theorem FitsIn.body {r : Rule} {c : Context σ} (h : (Job.rule r c).FitsIn g rank (levels + 1))
    {picked : Option Alternative} (hpicked : ∀ a, picked = some a → a ∈ r.alternatives)
    (output : String) (d : Context σ) :
    (Job.elements ((picked.map Alternative.elements).getD []) output d).FitsIn g rank levels := by
  obtain ⟨name, alternatives⟩ := r
  have hreads : nodeReads ((picked.map Alternative.elements).getD []) ⊆
      alternativeReads alternatives := by
    cases picked with
    | none => exact List.nil_subset _
    | some a => exact reads_of_alternative (hpicked a rfl)
  have hnesting : nodeNesting ((picked.map Alternative.elements).getD []) ≤
      alternativeNesting alternatives := by
    cases picked with
    | none => exact Nat.zero_le _
    | some a => exact nesting_of_alternative (hpicked a rfl)
  refine ⟨fun hread hrule => ?_, ?_⟩
  · have hcalled : rank _ + (alternativeNesting alternatives + 1) < levels + 1 :=
      h.called (hreads hread) hrule
    show rank _ + nodeNesting _ < levels
    omega
  · have hnested : alternativeNesting alternatives + 1 ≤ levels + 1 := h.nested
    show nodeNesting _ ≤ levels
    omega

end Job

/-! ### Evaluations -/

theorem Grammar.name_of_expanded {g : Grammar} {c : Context σ} {n : Node} {r : Rule}
    (h : g.expanded? c n = some r) :
    ∃ name, n.reads = [⟨[name], false⟩] ∧ g.rule? name = some r := by
  unfold expanded? at h
  split at h
  next name =>
    split at h
    · cases h
    · exact ⟨name, rfl, h⟩
  next name =>
    split at h
    · cases h
    · exact ⟨name, rfl, h⟩
  next => cases h

variable [DrawSource σ] {g : Grammar} {rank : String → Nat} {l : DepthLimit} {P : Int → Prop}

/-- What an evaluation comes to does not concern the depth limit, if it fits in the levels that are
left. The induction is on the evaluation: a part fits with the whole, and the body of a rule in one
level less. -/
theorem withinDepth_of_ends (hrank : g.RankedBy rank) {depth : Int} {job : Job σ}
    {r : Except Fault (Outcome σ)} (h : Ends g l P depth job r)
    (hfits : job.FitsIn g rank (l.left depth)) : WithinDepth r := by
  have hshallow : ∀ fault, Fault.IsShallow False False fault → fault.isDepth = false := fun _ h => h.1
  induction h with
  | literal => exact failsIn_ok _
  | missing => exact failsIn_error rfl
  | @expanded depth _ n c r _ hr _ ih =>
    obtain ⟨name, hreads, hname⟩ := Grammar.name_of_expanded hr
    have hread : ⟨[name], false⟩ ∈ n.reads := by
      rw [hreads]
      exact List.mem_singleton_self _
    have hcalled := hfits.called hread (Option.isSome_of_eq_some hname)
    exact failsIn_map _ (ih (Job.fitsIn_rule hrank hname c (by omega)))
  | rule hr => exact failsIn_readRule hshallow False.elim (failsIn_ok none)
  | reference hr =>
    exact failsIn_readReference hshallow False.elim False.elim False.elim False.elim fun _ _ =>
      failsIn_ok none
  | assign _ ih =>
    refine failsIn_bind (ih (hfits.part (List.Subset.refl _) (Nat.le_refl _))) fun e => ?_
    exact (shallow_assign False.elim False.elim False.elim e.value False.elim).withinDepth
  | binary _ _ ihleft ihright =>
    refine failsIn_bind_ok (ihleft (hfits.part (List.subset_append_left _ _)
      (Nat.le_max_left _ _))) fun o ho => ?_
    refine failsIn_bind (ihright o ho (hfits.part (List.subset_append_right _ _)
      (Nat.le_max_right _ _))) fun e => ?_
    exact failsIn_bind (BinaryOp.shallow_apply False.elim _ _).withinDepth fun _ => failsIn_ok _
  | @conditional _ _ condition whenTrue whenFalse _ _ _ _ _ _ ihtest ihtrue ihfalse =>
    have hboth : (condition.reads ++ whenTrue.reads) ⊆
        condition.reads ++ whenTrue.reads ++ whenFalse.reads := List.subset_append_left _ _
    refine failsIn_bind_ok (ihtest (hfits.part
      (List.Subset.trans (List.subset_append_left _ _) hboth) (Nat.le_max_left _ _))) fun o ho => ?_
    split
    next htruthy =>
      refine failsIn_bind (ihtrue o ho htruthy (hfits.part
        (List.Subset.trans (List.subset_append_right _ _) hboth) ?_)) fun _ => failsIn_ok _
      exact Nat.le_trans (Nat.le_max_left _ _) (Nat.le_max_right _ _)
    next htruthy =>
      split
      · exact failsIn_ok _
      next hmissing =>
        refine failsIn_bind (ihfalse o ho (Bool.eq_false_iff.mpr htruthy)
          (Bool.eq_false_iff.mpr hmissing) (hfits.part (List.subset_append_right _ _) ?_))
          fun _ => failsIn_ok _
        exact Nat.le_trans (Nat.le_max_right _ _) (Nat.le_max_right _ _)
  | silent _ ih =>
    exact failsIn_bind (ih (hfits.part (List.Subset.refl _) (Nat.le_refl _))) fun _ => failsIn_ok _
  | list _ ih => exact ih (hfits.part (List.Subset.refl _) (Nat.le_refl _))
  | @branch _ _ _ c _ _ ih =>
    refine failsIn_bind_ok c.knowledge.withinDepth_toTable fun k hk => ?_
    exact ih k hk (hfits.part (List.Subset.refl _) (Nat.le_refl _))
  | @alternative _ _ a _ _ _ ih =>
    obtain ⟨elements, weight⟩ := a
    exact ih (hfits.part (List.Subset.refl _) (Nat.le_refl _))
  | definition _ ih => exact ih (hfits.part (List.Subset.refl _) (Nat.le_refl _))
  | noElements => exact failsIn_ok _
  | elements _ _ ihfirst ihrest =>
    refine failsIn_bind_ok (ihfirst (hfits.part (List.subset_append_left _ _)
      (Nat.le_max_left _ _))) fun o ho => ?_
    refine failsIn_bind_ok (shallow_appendValue _ o.value).withinDepth fun output houtput => ?_
    exact ihrest o ho output houtput (hfits.part (List.subset_append_right _ _)
      (Nat.le_max_right _ _))
  | noMembers => exact failsIn_ok _
  | members _ _ ihfirst ihrest =>
    refine failsIn_bind_ok (ihfirst (hfits.part (List.subset_append_left _ _)
      (Nat.le_max_left _ _))) fun o ho => ?_
    exact ihrest o ho (hfits.part (List.subset_append_right _ _) (Nat.le_max_right _ _))
  | noParts => exact failsIn_ok _
  | parts _ _ ihfirst ihrest =>
    refine failsIn_bind_ok (ihfirst (hfits.part (List.subset_append_left _ _)
      (Nat.le_max_left _ _))) fun o ho => ?_
    refine failsIn_bind_ok (shallow_appendValue _ o.value).withinDepth fun output houtput => ?_
    refine failsIn_bind_ok o.context.knowledge.withinDepth_toTable fun k hk => ?_
    exact ihrest o ho output houtput k hk (hfits.part (List.subset_append_right _ _)
      (Nat.le_max_right _ _))
  | noAlternatives hr => exact failsIn_error rfl
  -- a rule of a rank is nested in the levels left, so the limit is not reached where one is entered
  | reached hr hdepth =>
    have hnested := hfits.nested
    rw [l.left_of_reached _ hdepth] at hnested
    exact absurd hnested (Nat.not_succ_le_zero _)
  | entered hr hdepth _ _ ih =>
    rw [l.left_succ _ hdepth] at hfits
    refine failsIn_bind_ok (Rule.shallow_pick? False.elim _).withinDepth fun picked hpicked => ?_
    have hbody := ih picked hpicked (hfits.body (Rule.elements_of_pick? hpicked) _ _)
    exact failsIn_bind hbody fun _ => failsIn_ok _

/-! ### Executions -/

theorem Grammar.withinDepth_run (hrank : g.RankedBy rank) (hlevels : rank "start" < l.levels)
    (c : Context σ) : WithinDepth (g.run l c) := by
  unfold run
  split
  · exact failsIn_error rfl
  next r hr =>
    have hends : Ends g l (fun _ => True) l.start (.rule r c)
        ((Job.rule r c).evaluate (g.expander l (l.left l.start))) :=
      ends_evaluate l.start (fun _ _ _ => trivial) (.rule r c)
    rw [← l.left_start] at hlevels ⊢
    exact withinDepth_of_ends hrank hends (Job.fitsIn_rule hrank hr c hlevels)

theorem Generator.withinDepth_knowledgeOf (v : Value) : WithinDepth (knowledgeOf v) := by
  unfold knowledgeOf
  split
  · exact failsIn_ok _
  · exact failsIn_ok _
  · exact failsIn_error rfl

theorem SeededRandom.withinDepth_ofValue (v : Value) : WithinDepth (ofValue v) := by
  unfold ofValue
  split
  · exact failsIn_ok _
  · exact failsIn_ok _
  · exact failsIn_error rfl

theorem withinDepth_executeWith {g : Generator} (hrank : g.grammar.RankedBy rank)
    (hlevels : rank "start" < g.settings.depthLimit.levels) (knowledge seed : Value) (draws : σ) :
    WithinDepth (g.executeWith knowledge seed draws) := by
  refine failsIn_bind (Generator.withinDepth_knowledgeOf knowledge) fun k => ?_
  refine failsIn_bind (Grammar.withinDepth_run hrank hlevels _) fun o => ?_
  exact Generator.failsIn_finish o.value.shallow_display.withinDepth
    seed.shallow_inspect.withinDepth

/-- No execution of a ranked grammar, on whatever knowledge and with whatever draws, fails because
rules are expanded inside each other too often, if the depth limit leaves more levels than the rank
of the first rule. On every stack that is large enough an execution comes to the same, and on every
smaller one it is given up. -/
theorem execution_withinDepth (g : Generator) (rank : String → Nat)
    (hrank : g.grammar.RankedBy rank) (hlevels : rank "start" < g.settings.depthLimit.levels)
    (knowledge seed : Value) :
    (∀ draws : σ, WithinDepth (g.executeWith knowledge seed draws) ∧
      Settles Generator.GivenUp (fun stack => g.executeWithOn stack knowledge seed draws)
        (g.executeWith knowledge seed draws)) ∧
    ∀ fresh : Int, WithinDepth (g.execute knowledge seed fresh) ∧
      Settles Generator.GivenUp (fun stack => g.executeOn stack knowledge seed fresh)
        (g.execute knowledge seed fresh) := by
  refine ⟨fun draws => ⟨withinDepth_executeWith hrank hlevels knowledge seed draws,
    g.settles_executeWithOn knowledge seed draws⟩, fun fresh => ⟨?_,
    g.settles_executeOn knowledge seed fresh⟩⟩
  refine failsIn_bind (Generator.withinDepth_knowledgeOf knowledge) fun k => ?_
  unfold Generator.seeded
  generalize (if seed.isNull then g.settings.defaultSeed else seed) = chosen
  split
  · exact withinDepth_executeWith hrank hlevels k .null _
  · refine failsIn_bind (SeededRandom.withinDepth_ofValue chosen) fun draws => ?_
    exact withinDepth_executeWith hrank hlevels k chosen draws

/-- A generator whose rule `start` refers to the rule `line` in a condition, in an operand and in
brackets, and `line` refers to the rule `word` twice; at most three rules may stand inside each
other. -/
def Generator.ticks : Generator :=
  ⟨⟨[("start", ⟨"start", [⟨[.conditional (.rule "line")
      (.binary (.reference ⟨["line"], false⟩) .add (.rule "word")) .missing,
      .group [.rule "line", .rule "line"] false], .float 1⟩]⟩),
    ("line", ⟨"line", [⟨[.rule "word", .rule "word"], .float 1⟩]⟩),
    ("word", ⟨"word", [⟨[.literal (.text "tick")], .float 1⟩,
      ⟨[.literal (.text "tock")], .float 1⟩]⟩)]⟩,
    ⟨⟨3, 0⟩, .null⟩⟩

theorem execution_withinDepth_ticks : ∃ rank : String → Nat,
    Generator.ticks.grammar.RankedBy rank ∧
      rank "start" < Generator.ticks.settings.depthLimit.levels ∧
      ∀ draws : DrawScript, WithinDepth (Generator.ticks.executeWith .null .null draws) ∧
        Settles Generator.GivenUp (fun stack => Generator.ticks.executeWithOn stack .null .null draws)
          (Generator.ticks.executeWith .null .null draws) := by
  let rank : String → Nat := fun name => if name = "start" then 2 else if name = "line" then 1 else 0
  have hrank : Generator.ticks.grammar.RankedBy rank :=
    Grammar.rankedBy_of_isRankedBy (by decide +kernel)
  have hlevels : rank "start" < Generator.ticks.settings.depthLimit.levels := by decide
  exact ⟨rank, hrank, hlevels,
    (execution_withinDepth Generator.ticks rank hrank hlevels .null .null).1⟩

/-- With one level less the same rules do reach the limit. -/
example : (match (Generator.mk Generator.ticks.grammar ⟨⟨2, 0⟩, .null⟩).executeWith .null .null
      (DrawScript.mk 0 []) with
    | .ok _ => false
    | .error fault => fault.isDepth) = true := by
  decide +kernel

/-! ### Sums -/

/-- A sum of ones with a number of plus signs, grouped from the left. -/
def Node.ones : Nat → Node
  | 0 => .literal (.int 1)
  | n + 1 => .binary (ones n) .add (.literal (.int 1))

/-- A generator of one rule, which is a sum of ones and refers to no rule. -/
def Generator.ones (n : Nat) : Generator :=
  ⟨⟨[("start", ⟨"start", [⟨[Node.ones n], .float 1⟩]⟩)]⟩, Settings.standard⟩

theorem Node.reads_ones (n : Nat) : (ones n).reads = [] := by
  induction n with
  | zero => rfl
  | succ n ih => exact congrArg (· ++ []) ih

theorem Node.nesting_ones (n : Nat) : (ones n).nesting = 0 := by
  induction n with
  | zero => rfl
  | succ n ih => exact congrArg (max · 0) ih

theorem Generator.rule?_ones {n : Nat} {name : String} {r : Rule}
    (h : (ones n).grammar.rule? name = some r) :
    r = ⟨"start", [⟨[Node.ones n], .float 1⟩]⟩ :=
  congrArg Prod.snd (List.mem_singleton.mp (Table.mem_of_get? h))

theorem Generator.rankedBy_ones (n : Nat) : (ones n).grammar.RankedBy fun _ => 0 := by
  have hflat : ∀ {name r}, (ones n).grammar.rule? name = some r → r.nesting = 0 ∧ r.reads = [] := by
    intro name r hr
    rw [rule?_ones hr]
    refine ⟨?_, ?_⟩
    · show max (max (Node.ones n).nesting 0) 0 = 0
      rw [Node.nesting_ones, Nat.max_self, Nat.max_self]
    · show ((Node.ones n).reads ++ []) ++ [] = []
      rw [Node.reads_ones]
      rfl
  refine (Grammar.rankedBy_iff_of_flat fun hr => (hflat hr).1).mpr fun hr hread _ => ?_
  rw [(hflat hr).2] at hread
  cases hread

/-- Each operand but the last stands two calls deeper than the next one. -/
theorem evaluateOn_ones (x : Nat → Expander σ) {n room : Nat} (h : room ≤ 2 * n)
    (asBranch : Bool) (c : Context σ) :
    (Node.ones n).evaluateOn x room asBranch c = .error .exhausted := by
  induction n generalizing room asBranch with
  | zero =>
    obtain rfl : room = 0 := by omega
    rfl
  | succ n ih =>
    rcases Nat.lt_or_ge room 2 with hsmall | hlarge
    · exact if_neg (by omega)
    · refine (if_pos hlarge).trans ?_
      rw [ih (by omega)]
      rfl

/-- The sum is given up on every stack that has no room for three calls, for two more for each
operator, and for one more. -/
theorem executeWithOn_ones {n stack : Nat} (hcopy : 3 ≤ stack) (hstack : stack ≤ 2 * n + 3)
    (seed : Value) (draws : σ) :
    (Generator.ones n).executeWithOn stack (.object []) seed draws = .error .exhausted := by
  obtain ⟨room, rfl⟩ : ∃ room, stack = room + 1 + 1 + 1 := ⟨stack - 3, by omega⟩
  have helements : ∀ (x : Nat → Expander σ) (c : Context σ),
      evaluateElementsOn x room [Node.ones n] "" c = .error .exhausted := by
    intro x c
    rw [evaluateElementsOn, evaluateOn_ones x (by omega)]
    rfl
  have hrun : ∀ c : Context σ, (Generator.ones n).grammar.runOn (room + 1 + 1 + 1)
      (Generator.ones n).settings.depthLimit c = .error .exhausted := by
    intro c
    change (evaluateElementsOn _ room [Node.ones n] "" _ >>= _) = _
    rw [helements]
    rfl
  change (Grammar.runOn _ _ _ _ >>= _) = _
  rw [hrun]
  rfl

/-- A sum of 601 ones under a limit of 64 nested expansions, of which it needs one: the standard stack
is used up, and the run ends as one that reaches the limit. -/
theorem execution_exhausted_ones :
    let result := (Generator.ones 600).executeWithOn Stack.standard (.object []) .null
      (DrawScript.mk 0 [])
    (∃ rank : String → Nat, (Generator.ones 600).grammar.RankedBy rank ∧
      rank "start" < (Generator.ones 600).settings.depthLimit.levels) ∧
    result = .error .exhausted ∧ ¬WithinDepth result := by
  intro result
  have hresult : result = .error .exhausted := executeWithOn_ones (by decide) (by decide) _ _
  refine ⟨⟨fun _ => 0, Generator.rankedBy_ones 600, by decide⟩, hresult, fun hwithin => ?_⟩
  exact absurd (hwithin _ hresult) (by decide)

end ProseGrammar
