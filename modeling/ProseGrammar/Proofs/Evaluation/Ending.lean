import ProseGrammar.Evaluation
import ProseGrammar.Proofs.Results

/-!
# Every evaluation ends

The relation `Ends` says what an evaluation comes to without saying that it comes to anything: it
refers to the parts that are evaluated, keeps the depth of the context they are evaluated at, and
knows the rules of the grammar by their names only, so a rule may refer to itself. Every evaluation
ends nonetheless, since each part either stands at a greater depth, up to the limit, or is smaller;
and it ends in what the evaluation by levels gives.
-/

namespace ProseGrammar

variable {σ : Type}

/-! ### Depths -/

namespace DepthLimit

/-- Whether no rule may be expanded at a depth. -/
def Reached (l : DepthLimit) (depth : Int) : Prop :=
  l.limit ≤ depth

/-- The number of levels from a depth to the limit. -/
def left (l : DepthLimit) (depth : Int) : Nat :=
  (l.limit - depth).toNat

theorem left_start (l : DepthLimit) : l.left l.start = l.levels := rfl

theorem left_of_reached (l : DepthLimit) (depth : Int) (h : l.Reached depth) : l.left depth = 0 := by
  unfold Reached at h
  unfold left
  omega

theorem left_succ (l : DepthLimit) (depth : Int) (h : ¬l.Reached depth) :
    l.left depth = l.left (depth + 1) + 1 := by
  unfold Reached at h
  unfold left
  omega

theorem lt_limit (l : DepthLimit) (depth : Int) (h : ¬l.Reached depth) : depth < l.limit := by
  unfold Reached at h
  omega

end DepthLimit

/-! ### Sizes -/

mutual

/-- The number of nodes; a rule in the place of a node counts as one, since its own nodes stand one
level deeper. -/
def Node.size : Node → Nat
  | .literal _ | .rule _ | .reference _ | .definition _ | .missing => 1
  | .assign _ _ expression => expression.size + 1
  | .binary left _ right => left.size + right.size + 1
  | .conditional condition whenTrue whenFalse =>
    condition.size + whenTrue.size + whenFalse.size + 1
  | .silent expression => expression.size + 1
  | .group members _ => totalSize members + 1
  | .alternative a => a.size + 1

def Alternative.size : Alternative → Nat
  | ⟨elements, _⟩ => totalSize elements

def totalSize : List Node → Nat
  | [] => 0
  | n :: rest => n.size + totalSize rest + 1

end

/-! ### Jobs -/

/-- What is evaluated in a context: a node, the elements of an alternative, the members of a list,
the parts of a branch, or a rule. -/
inductive Job (σ : Type)
  | node (asBranch : Bool) (n : Node) (c : Context σ)
  | elements (ns : List Node) (output : String) (c : Context σ)
  | list (ns : List Node) (last : Value) (c : Context σ)
  | branch (ns : List Node) (output : String) (collected : Table Value) (c : Context σ)
  | rule (r : Rule) (c : Context σ)

namespace Job

def evaluate [DrawSource σ] (x : Expander σ) : Job σ → Except Fault (Outcome σ)
  | node asBranch n c => n.evaluate x asBranch c
  | elements ns output c => evaluateElements x ns output c
  | list ns last c => evaluateList x ns last c
  | branch ns output collected c => evaluateBranch x ns output collected c
  | rule r c => x.expand r c

/-- The size of what is evaluated; for a rule this is nothing, since its nodes stand one level
deeper. -/
def size : Job σ → Nat
  | node _ n _ => n.size
  | elements ns _ _ => totalSize ns
  | list ns _ _ => totalSize ns
  | branch ns _ _ _ => totalSize ns
  | rule _ _ => 0

end Job

/-! ### Names of rules -/

/-- An expander that knows no rules. -/
def Expander.idle : Expander σ :=
  ⟨fun r _ => .error (.evaluation (.noAlternatives r.name) none), fun _ _ => .ok none⟩

/-- The rule that a reference is expanded to: a variable of its name goes before the rule, and a path
has one segment only. -/
def Grammar.expanded? (g : Grammar) (c : Context σ) : Node → Option Rule
  | .rule name => if c.frame.has name then none else g.rule? name
  | .reference ⟨[name], false⟩ => if c.frame.has name then none else g.rule? name
  | _ => none

def Outcome.trimmed (o : Outcome σ) : Outcome σ :=
  ⟨o.value.trimmed, o.context⟩

theorem expandNamed_expanderBy (g : Grammar)
    (expand : Rule → Context σ → Except Fault (Outcome σ)) (name : String) (c : Context σ) :
    (g.expanderBy expand).expandNamed name c =
      match g.rule? name with
      | none => .ok none
      | some rule => (some ∘ Outcome.trimmed) <$> expand rule c := by
  have hstep : (g.expanderBy expand).expandNamed name c =
      match g.rule? name with
      | none => .ok none
      | some rule => do
        let o ← expand rule c
        return some ⟨o.value.trimmed, o.context⟩ := rfl
  rw [hstep]
  cases g.rule? name with
  | none => rfl
  | some rule =>
    dsimp only
    cases expand rule c <;> rfl

/-- A reference to a rule comes to what the rule comes to. -/
theorem evaluate_expanded [DrawSource σ] (g : Grammar)
    (expand : Rule → Context σ → Except Fault (Outcome σ)) (asBranch : Bool) (n : Node)
    (c : Context σ) (r : Rule) (h : g.expanded? c n = some r) :
    n.evaluate (g.expanderBy expand) asBranch c = Outcome.trimmed <$> expand r c := by
  unfold Grammar.expanded? at h
  split at h
  next name =>
    split at h
    · cases h
    next hnew =>
      have hnone : c.frame.get? name = none := by
        rw [Table.has, Bool.not_eq_true, Option.isSome_eq_false_iff] at hnew
        exact Option.isNone_iff_eq_none.mp hnew
      rw [Node.evaluate, readRule, hnone]
      dsimp only
      rw [expandNamed_expanderBy, h]
      dsimp only
      cases expand r c <;> rfl
  next name =>
    split at h
    · cases h
    next hnew =>
      rw [Node.evaluate, readReference]
      dsimp only
      rw [if_neg nofun, if_pos (by simp [hnew]), expandNamed_expanderBy, h]
      dsimp only
      cases expand r c <;> rfl
  next => cases h

theorem readRule_idle (g : Grammar) (expand : Rule → Context σ → Except Fault (Outcome σ))
    (name : String) (c : Context σ) (h : g.expanded? c (.rule name) = none) :
    readRule (g.expanderBy expand) name c = readRule .idle name c := by
  unfold readRule
  split
  next => rfl
  next hnone =>
    have hrule : g.rule? name = none := by
      rw [Grammar.expanded?, Table.has, hnone] at h
      exact h
    rw [expandNamed_expanderBy, hrule]
    rfl

theorem readReference_idle [DrawSource σ] (g : Grammar)
    (expand : Rule → Context σ → Except Fault (Outcome σ)) (target : Reference) (c : Context σ)
    (h : g.expanded? c (.reference target) = none) :
    readReference (g.expanderBy expand) target c = readReference .idle target c := by
  obtain ⟨path, isKnowledge⟩ := target
  cases path with
  | nil => rfl
  | cons name path =>
    cases isKnowledge with
    | true => rfl
    | false =>
      unfold readReference
      dsimp only
      by_cases hname : (path.isEmpty && !c.frame.has name) = true
      · simp only [Bool.and_eq_true, List.isEmpty_iff, Bool.not_eq_true'] at hname
        obtain ⟨rfl, hnew⟩ := hname
        have hrule : g.rule? name = none := by
          rw [Grammar.expanded?, if_neg (by rw [hnew]; nofun)] at h
          exact h
        rw [expandNamed_expanderBy, hrule]
        rfl
      · simp only [Bool.false_eq_true, if_false, if_neg hname]

/-! ### Rules by levels -/

section

variable [DrawSource σ] {g : Grammar} {l : DepthLimit} {levels : Nat} {r : Rule} {c : Context σ}

theorem Rule.expand_noAlternatives (hr : r.alternatives.isEmpty = true) :
    r.expand g l levels c = .error (.evaluation (.noAlternatives r.name) (some ("$" ++ r.name))) := by
  unfold expand
  exact if_pos hr

theorem Rule.expand_zero (hr : r.alternatives.isEmpty = false) :
    r.expand g l 0 c = .error (l.fault r.name) := by
  unfold expand
  rw [hr]
  rfl

theorem Rule.expand_succ (hr : r.alternatives.isEmpty = false) :
    r.expand g l (levels + 1) c = (do
      let picked ← r.pick? c.draws
      let o ← evaluateElements (g.expander l levels)
        ((picked.1.map Alternative.elements).getD []) "" { c with draws := picked.2 }
      return o.close c) := by
  unfold expand
  rw [hr]
  refine bind_congr_ok _ _ _ fun picked _ => ?_
  obtain ⟨alternative, draws⟩ := picked
  cases alternative <;> rfl

end

/-! ### What an evaluation comes to -/

/-- What a job at a depth comes to, and that every rule in it is entered at a depth where `P`
holds. A part that follows others is evaluated if they have results. -/
inductive Ends [DrawSource σ] (g : Grammar) (l : DepthLimit) (P : Int → Prop) :
    Int → Job σ → Except Fault (Outcome σ) → Prop
  | literal {depth : Int} {asBranch : Bool} {value : Value} {c : Context σ} :
      Ends g l P depth (.node asBranch (.literal value) c) (.ok ⟨value, c⟩)
  | missing {depth : Int} {asBranch : Bool} {c : Context σ} :
      Ends g l P depth (.node asBranch .missing c)
        (.error (.evaluation (.notANode Value.null.kind) none))
  | expanded {depth : Int} {asBranch : Bool} {n : Node} {c : Context σ} {r : Rule}
      {x : Except Fault (Outcome σ)} (hr : g.expanded? c n = some r)
      (h : Ends g l P depth (.rule r c) x) :
      Ends g l P depth (.node asBranch n c) (Outcome.trimmed <$> x)
  | rule {depth : Int} {asBranch : Bool} {name : String} {c : Context σ}
      (hr : g.expanded? c (.rule name) = none) :
      Ends g l P depth (.node asBranch (.rule name) c) (readRule .idle name c)
  | reference {depth : Int} {asBranch : Bool} {target : Reference} {c : Context σ}
      (hr : g.expanded? c (.reference target) = none) :
      Ends g l P depth (.node asBranch (.reference target) c) (readReference .idle target c)
  | assign {depth : Int} {asBranch : Bool} {target : Reference} {op : AssignOp}
      {expression : Node} {c : Context σ} {x : Except Fault (Outcome σ)}
      (h : Ends g l P depth (.node false expression c) x) :
      Ends g l P depth (.node asBranch (.assign target op expression) c)
        (x >>= fun e => assign target op e.value e.context)
  | binary {depth : Int} {asBranch : Bool} {left right : Node} {op : BinaryOp} {c : Context σ}
      {x : Except Fault (Outcome σ)} {y : Outcome σ → Except Fault (Outcome σ)}
      (hleft : Ends g l P depth (.node false left c) x)
      (hright : ∀ o, x = .ok o → Ends g l P depth (.node false right o.context) (y o)) :
      Ends g l P depth (.node asBranch (.binary left op right) c) (do
        let l ← x
        let r ← y l
        let r := r.close l.context
        return ⟨← op.apply l.value r.value, r.context⟩)
  | conditional {depth : Int} {asBranch : Bool} {condition whenTrue whenFalse : Node}
      {c : Context σ} {x : Except Fault (Outcome σ)} {y : Outcome σ → Except Fault (Outcome σ)}
      (htest : Ends g l P depth (.node false condition c) x)
      (htrue : ∀ o, x = .ok o → o.value.isTruthy = true →
        Ends g l P depth (.node true whenTrue o.context) (y o))
      (hfalse : ∀ o, x = .ok o → o.value.isTruthy = false → whenFalse.isMissing = false →
        Ends g l P depth (.node true whenFalse o.context) (y o)) :
      Ends g l P depth (.node asBranch (.conditional condition whenTrue whenFalse) c) (do
        let test ← x
        if test.value.isTruthy then return (← y test).close test.context
        else if whenFalse.isMissing then return ⟨.text "", test.context⟩
        else return (← y test).close test.context)
  | silent {depth : Int} {asBranch : Bool} {expression : Node} {c : Context σ}
      {x : Except Fault (Outcome σ)} (h : Ends g l P depth (.node false expression c) x) :
      Ends g l P depth (.node asBranch (.silent expression) c) (do
        let e ← x
        return ⟨.text "", e.context⟩)
  | list {depth : Int} {members : List Node} {prose : Bool} {c : Context σ}
      {x : Except Fault (Outcome σ)} (h : Ends g l P depth (.list members (.text "") c) x) :
      Ends g l P depth (.node false (.group members prose) c) x
  | branch {depth : Int} {parts : List Node} {prose : Bool} {c : Context σ}
      {y : Table Value → Except Fault (Outcome σ)}
      (h : ∀ k, c.knowledge.toTable = .ok k → Ends g l P depth (.branch parts "" k c) (y k)) :
      Ends g l P depth (.node true (.group parts prose) c) (c.knowledge.toTable >>= y)
  | alternative {depth : Int} {asBranch : Bool} {a : Alternative} {c : Context σ}
      {x : Except Fault (Outcome σ)} (h : Ends g l P depth (.elements a.elements "" c) x) :
      Ends g l P depth (.node asBranch (.alternative a) c) x
  | definition {depth : Int} {asBranch : Bool} {r : Rule} {c : Context σ}
      {x : Except Fault (Outcome σ)} (h : Ends g l P depth (.rule r c) x) :
      Ends g l P depth (.node asBranch (.definition r) c) x
  | noElements {depth : Int} {output : String} {c : Context σ} :
      Ends g l P depth (.elements [] output c) (.ok ⟨.text output, c⟩)
  | elements {depth : Int} {n : Node} {rest : List Node} {output : String} {c : Context σ}
      {x : Except Fault (Outcome σ)} {y : Outcome σ → String → Except Fault (Outcome σ)}
      (hfirst : Ends g l P depth (.node false n c) x)
      (hrest : ∀ o, x = .ok o → ∀ output', appendValue output o.value = .ok output' →
        Ends g l P depth (.elements rest output' (o.close c).context) (y o output')) :
      Ends g l P depth (.elements (n :: rest) output c) (do
        let o ← x
        let output ← appendValue output o.value
        y o output)
  | noMembers {depth : Int} {last : Value} {c : Context σ} :
      Ends g l P depth (.list [] last c) (.ok ⟨last, c⟩)
  | members {depth : Int} {n : Node} {rest : List Node} {last : Value} {c : Context σ}
      {x : Except Fault (Outcome σ)} {y : Outcome σ → Except Fault (Outcome σ)}
      (hfirst : Ends g l P depth (.node false n c) x)
      (hrest : ∀ o, x = .ok o → Ends g l P depth (.list rest o.value (o.close c).context) (y o)) :
      Ends g l P depth (.list (n :: rest) last c) (x >>= y)
  | noParts {depth : Int} {output : String} {collected : Table Value} {c : Context σ} :
      Ends g l P depth (.branch [] output collected c)
        (.ok ⟨.text output, { c with knowledge := .object collected }⟩)
  | parts {depth : Int} {n : Node} {rest : List Node} {output : String} {collected : Table Value}
      {c : Context σ} {x : Except Fault (Outcome σ)}
      {y : Outcome σ → String → Table Value → Except Fault (Outcome σ)}
      (hfirst : Ends g l P depth (.node false n c) x)
      (hrest : ∀ o, x = .ok o → ∀ output', appendValue output o.value = .ok output' →
        ∀ k, o.context.knowledge.toTable = .ok k → Ends g l P depth
          (.branch rest output' (collected.merge k) (o.close c).context) (y o output' k)) :
      Ends g l P depth (.branch (n :: rest) output collected c) (do
        let o ← x
        let output ← appendValue output o.value
        let k ← o.context.knowledge.toTable
        y o output k)
  | noAlternatives {depth : Int} {r : Rule} {c : Context σ} (hr : r.alternatives.isEmpty = true) :
      Ends g l P depth (.rule r c)
        (.error (.evaluation (.noAlternatives r.name) (some ("$" ++ r.name))))
  | reached {depth : Int} {r : Rule} {c : Context σ} (hr : r.alternatives.isEmpty = false)
      (hdepth : l.Reached depth) : Ends g l P depth (.rule r c) (.error (l.fault r.name))
  | entered {depth : Int} {r : Rule} {c : Context σ}
      {y : Option Alternative × σ → Except Fault (Outcome σ)}
      (hr : r.alternatives.isEmpty = false) (hdepth : ¬l.Reached depth) (hP : P (depth + 1))
      (hbody : ∀ picked, r.pick? c.draws = .ok picked → Ends g l P (depth + 1)
        (.elements ((picked.1.map Alternative.elements).getD []) "" { c with draws := picked.2 })
        (y picked)) :
      Ends g l P depth (.rule r c) (do
        let picked ← r.pick? c.draws
        let o ← y picked
        return o.close c)

variable [DrawSource σ] {g : Grammar} {l : DepthLimit} {P : Int → Prop}

theorem eq_evaluate_of_ends {depth : Int} {job : Job σ} {r : Except Fault (Outcome σ)}
    (h : Ends g l P depth job r) : r = job.evaluate (g.expander l (l.left depth)) := by
  induction h with
  | literal => rfl
  | missing => rfl
  | expanded hr _ ih =>
    rw [ih]
    exact (evaluate_expanded g _ _ _ _ _ hr).symm
  | rule hr => exact (readRule_idle g _ _ _ hr).symm
  | reference hr => exact (readReference_idle g _ _ _ hr).symm
  | assign _ ih =>
    rw [ih, Job.evaluate, Job.evaluate, Node.evaluate]
  | binary _ _ ihleft ihright =>
    rw [Job.evaluate, Node.evaluate, ihleft]
    refine bind_congr_ok _ _ _ fun o ho => ?_
    rw [ihright o (ihleft.trans ho)]
    rfl
  | @conditional _ _ _ _ whenFalse _ _ _ _ _ _ ihtest ihtrue ihfalse =>
    rw [Job.evaluate, Node.evaluate, ihtest]
    refine bind_congr_ok _ _ _ fun o ho => ?_
    have hx := ihtest.trans ho
    cases htruthy : o.value.isTruthy with
    | true =>
      rw [if_pos rfl, if_pos rfl, ihtrue o hx htruthy]
      rfl
    | false =>
      simp only [Bool.false_eq_true, if_false]
      cases hmissing : whenFalse.isMissing with
      | true => rfl
      | false =>
        rw [ihfalse o hx htruthy hmissing]
        rfl
  | silent _ ih =>
    rw [ih, Job.evaluate, Job.evaluate, Node.evaluate]
  | list _ ih => exact ih
  | branch _ ih =>
    rw [Job.evaluate, Node.evaluate]
    refine bind_congr_ok _ _ _ fun k hk => ?_
    exact ih k hk
  | @alternative _ _ a _ _ _ ih =>
    obtain ⟨elements, weight⟩ := a
    exact ih
  | definition _ ih => exact ih
  | noElements => rfl
  | elements _ _ ihfirst ihrest =>
    rw [Job.evaluate, evaluateElements, ihfirst]
    refine bind_congr_ok _ _ _ fun o ho => ?_
    refine bind_congr_ok _ _ _ fun output houtput => ?_
    exact ihrest o (ihfirst.trans ho) output houtput
  | noMembers => rfl
  | members _ _ ihfirst ihrest =>
    rw [Job.evaluate, evaluateList, ihfirst]
    refine bind_congr_ok _ _ _ fun o ho => ?_
    exact ihrest o (ihfirst.trans ho)
  | noParts => rfl
  | parts _ _ ihfirst ihrest =>
    rw [Job.evaluate, evaluateBranch, ihfirst]
    refine bind_congr_ok _ _ _ fun o ho => ?_
    refine bind_congr_ok _ _ _ fun output houtput => ?_
    refine bind_congr_ok _ _ _ fun k hk => ?_
    exact ihrest o (ihfirst.trans ho) output houtput k hk
  | noAlternatives hr => exact (Rule.expand_noAlternatives hr).symm
  | @reached _ _ c hr hdepth =>
    rw [l.left_of_reached _ hdepth]
    exact (Rule.expand_zero (g := g) (c := c) hr).symm
  | entered hr hdepth _ _ ih =>
    rw [l.left_succ _ hdepth]
    refine Eq.trans ?_ (Rule.expand_succ hr).symm
    refine bind_congr_ok _ _ _ fun picked hpicked => ?_
    rw [ih picked hpicked]
    rfl

theorem Ends.of_eq {depth : Int} {job : Job σ} {x y : Except Fault (Outcome σ)}
    (h : Ends g l P depth job x) (hxy : x = y) : Ends g l P depth job y :=
  hxy ▸ h

/-- Every job at every depth ends in what the evaluation by levels gives: each part of it stands
at a greater depth, with fewer levels left, or at the same depth and is smaller. -/
theorem ends_evaluate (depth : Int) (hP : ∀ child, depth < child → child ≤ l.limit → P child)
    (job : Job σ) : Ends g l P depth job (job.evaluate (g.expander l (l.left depth))) := by
  match job with
  | .node asBranch (.literal value) c => exact .literal
  | .node asBranch .missing c => exact .missing
  | .node asBranch (.rule name) c =>
    cases hr : g.expanded? c (.rule name) with
    | none => exact (Ends.rule hr).of_eq (readRule_idle g _ name c hr).symm
    | some r =>
      have hrule := ends_evaluate depth hP (.rule r c)
      exact (Ends.expanded hr hrule).of_eq (evaluate_expanded g _ asBranch _ c r hr).symm
  | .node asBranch (.reference target) c =>
    cases hr : g.expanded? c (.reference target) with
    | none => exact (Ends.reference hr).of_eq (readReference_idle g _ target c hr).symm
    | some r =>
      have hrule := ends_evaluate depth hP (.rule r c)
      exact (Ends.expanded hr hrule).of_eq (evaluate_expanded g _ asBranch _ c r hr).symm
  | .node asBranch (.assign target op expression) c =>
    exact .assign (ends_evaluate depth hP (.node false expression c))
  | .node asBranch (.binary left op right) c =>
    exact .binary (ends_evaluate depth hP (.node false left c))
      fun o _ => ends_evaluate depth hP (.node false right o.context)
  | .node asBranch (.conditional condition whenTrue whenFalse) c =>
    refine (Ends.conditional (y := fun o =>
      if o.value.isTruthy then whenTrue.evaluate (g.expander l (l.left depth)) true o.context
      else whenFalse.evaluate (g.expander l (l.left depth)) true o.context)
      (ends_evaluate depth hP (.node false condition c)) ?_ ?_).of_eq ?_
    · intro o _ htruthy
      rw [if_pos htruthy]
      exact ends_evaluate depth hP (.node true whenTrue o.context)
    · intro o _ htruthy _
      rw [if_neg (by rw [htruthy]; nofun)]
      exact ends_evaluate depth hP (.node true whenFalse o.context)
    · refine bind_congr_ok _ _ _ fun o _ => ?_
      cases o.value.isTruthy <;> rfl
  | .node asBranch (.silent expression) c =>
    exact .silent (ends_evaluate depth hP (.node false expression c))
  | .node false (.group members prose) c =>
    exact .list (ends_evaluate depth hP (.list members (.text "") c))
  | .node true (.group parts prose) c =>
    exact .branch fun k _ => ends_evaluate depth hP (.branch parts "" k c)
  | .node asBranch (.alternative ⟨elements, weight⟩) c =>
    exact .alternative (ends_evaluate depth hP (.elements elements "" c))
  | .node asBranch (.definition r) c => exact .definition (ends_evaluate depth hP (.rule r c))
  | .elements [] output c => exact .noElements
  | .elements (n :: rest) output c =>
    exact .elements (ends_evaluate depth hP (.node false n c))
      fun o _ output' _ => ends_evaluate depth hP (.elements rest output' (o.close c).context)
  | .list [] last c => exact .noMembers
  | .list (n :: rest) last c =>
    exact .members (ends_evaluate depth hP (.node false n c))
      fun o _ => ends_evaluate depth hP (.list rest o.value (o.close c).context)
  | .branch [] output collected c => exact .noParts
  | .branch (n :: rest) output collected c =>
    exact .parts (ends_evaluate depth hP (.node false n c)) fun o _ output' _ k _ =>
      ends_evaluate depth hP (.branch rest output' (collected.merge k) (o.close c).context)
  -- the body of a rule is no smaller than the rule, but it stands at a greater depth
  | .rule r c =>
    cases hr : r.alternatives.isEmpty with
    | true => exact (Ends.noAlternatives hr).of_eq (Rule.expand_noAlternatives hr).symm
    | false =>
      by_cases hdepth : l.Reached depth
      · refine (Ends.reached hr hdepth).of_eq ?_
        rw [l.left_of_reached depth hdepth]
        exact (Rule.expand_zero (g := g) (c := c) hr).symm
      · have hlimit := l.lt_limit depth hdepth
        have hbody := fun picked : Option Alternative × σ => ends_evaluate (depth + 1)
          (fun child hchild => hP child (by omega))
          (.elements ((picked.1.map Alternative.elements).getD []) "" { c with draws := picked.2 })
        have hchild := hP (depth + 1) (by omega) (by omega)
        refine (Ends.entered hr hdepth hchild fun picked _ => hbody picked).of_eq ?_
        rw [l.left_succ depth hdepth]
        exact (Rule.expand_succ hr).symm
termination_by (l.left depth, job.size)
decreasing_by
  all_goals first
    | exact Prod.Lex.right _ (by simp only [Job.size, Node.size, Alternative.size, totalSize]; omega)
    | exact Prod.Lex.left _ _ (by rw [l.left_succ depth ‹_›]; omega)

/-- The evaluation of a node ends, whatever the grammar, the limit, the depth of the context, and the
draws. It ends in one way only; and every rule that is entered below the context is entered at a
greater depth, of at most the limit. -/
theorem evaluate_ends (g : Grammar) (l : DepthLimit) (depth : Int) (asBranch : Bool) (n : Node)
    (c : Context σ) :
    Ends g l (fun child => depth < child ∧ child ≤ l.limit) depth (.node asBranch n c)
        (n.evaluate (g.expander l (l.left depth)) asBranch c) ∧
      ∀ r, Ends g l (fun _ => True) depth (.node asBranch n c) r →
        r = n.evaluate (g.expander l (l.left depth)) asBranch c :=
  ⟨ends_evaluate depth (fun _ hdepth hlimit => ⟨hdepth, hlimit⟩) (.node asBranch n c),
    fun _ h => eq_evaluate_of_ends h⟩

end ProseGrammar
