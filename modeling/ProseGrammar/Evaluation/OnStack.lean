import ProseGrammar.Evaluation
import ProseGrammar.Stack

/-!
# Evaluation on a stack

A run does what evaluation says as long as its calls find room on the stack. Nodes are evaluated
inside of the nodes that they stand in, rules inside of the references to them, and values are copied
and shown inside of what asks for it. A run that comes to the end of its room is given up, and says
so in the words of the limit on nested expansions.
-/

namespace ProseGrammar

variable {σ : Type}

/-! ### Calls -/

/-- What a run comes to that has no room left. -/
def Fault.exhausted : Fault :=
  .evaluation .depthExhausted (some "$start")

namespace Stack

def within {α : Type} (calls room : Nat) (next : Nat → Except Fault α) : Except Fault α :=
  enter .exhausted calls room next

end Stack

open Stack (within)

/-- The calls of an assignment. What the target stands in is copied, unless the target is a variable
as a whole, which is shown if something is added to it; what is assigned is shown. -/
def assignCalls (target : Reference) (value : Value) (c : Context σ) : Nat :=
  let inside :=
    if target.isKnowledge then c.knowledge.copyCalls + 2
    else
      match target.path with
      | [] => 0
      | [name] => ((c.frame.get? name).getD .null).displayCalls
      | name :: _ => ((c.frame.get? name).getD .null).copyCalls + 1
  max inside value.displayCalls

/-! ### Nodes -/

mutual

/-- Evaluates a node in some room; how rules are expanded depends on the room they are given. -/
def Node.evaluateOn [DrawSource σ] (x : Nat → Expander σ) (room : Nat) (asBranch : Bool) :
    Node → Context σ → Except Fault (Outcome σ)
  | .literal value, c => within 1 room fun _ => .ok ⟨value, c⟩
  | .rule name, c => within 2 room fun room => readRule (x room) name c
  | .reference target, c => within 2 room fun room => readReference (x room) target c
  | .assign target op expression, c => within 2 room fun room => do
    let e ← expression.evaluateOn x room false c
    within (assignCalls target e.value e.context) room fun _ => assign target op e.value e.context
  | .binary left op right, c => within 2 room fun room => do
    let l ← left.evaluateOn x room false c
    let r ← right.evaluateOn x room false l.context
    let r := r.close l.context
    let value ← within (max l.value.displayCalls r.value.displayCalls + 1) room fun _ =>
      op.apply l.value r.value
    return ⟨value, r.context⟩
  | .conditional condition whenTrue whenFalse, c => within 2 room fun room => do
    let test ← condition.evaluateOn x room false c
    if test.value.isTruthy then
      return (← whenTrue.evaluateOn x room true test.context).close test.context
    else if whenFalse.isMissing then return ⟨.text "", test.context⟩
    else return (← whenFalse.evaluateOn x room true test.context).close test.context
  | .silent expression, c => within 1 room fun room => do
    let e ← expression.evaluateOn x room false c
    return ⟨.text "", e.context⟩
  | .group members _, c => do
    -- a branch is taken up as running text at once, any other group is first told to be one
    if asBranch then
      within 1 room fun room => do
        evaluateBranchOn x room members "" (← c.knowledge.toTable) c
    else within 2 room fun room => evaluateListOn x room members (.text "") c
  | .alternative a, c => within 1 room fun room => a.evaluateOn x room c
  | .definition r, c => within 1 room fun room => (x room).expand r c
  | .missing, _ => within 1 room fun _ => .error (.evaluation (.notANode Value.null.kind) none)

def Alternative.evaluateOn [DrawSource σ] (x : Nat → Expander σ) (room : Nat) :
    Alternative → Context σ → Except Fault (Outcome σ)
  | ⟨elements, _⟩, c => within 1 room fun room => evaluateElementsOn x room elements "" c

/-- Evaluates elements in order; those that stand side by side have the same room. -/
def evaluateElementsOn [DrawSource σ] (x : Nat → Expander σ) (room : Nat) :
    List Node → (output : String) → Context σ → Except Fault (Outcome σ)
  | [], output, c => .ok ⟨.text output, c⟩
  | n :: rest, output, c => do
    let o ← n.evaluateOn x room false c
    let o := o.close c
    let output ← within o.value.displayCalls room fun _ => appendValue output o.value
    evaluateElementsOn x room rest output o.context

def evaluateListOn [DrawSource σ] (x : Nat → Expander σ) (room : Nat) :
    List Node → (last : Value) → Context σ → Except Fault (Outcome σ)
  | [], last, c => .ok ⟨last, c⟩
  | n :: rest, _, c => do
    let o ← n.evaluateOn x room false c
    let o := o.close c
    evaluateListOn x room rest o.value o.context

def evaluateBranchOn [DrawSource σ] (x : Nat → Expander σ) (room : Nat) :
    List Node → (output : String) → (collected : Table Value) → Context σ →
      Except Fault (Outcome σ)
  | [], output, collected, c => .ok ⟨.text output, { c with knowledge := .object collected }⟩
  | n :: rest, output, collected, c => do
    let o ← n.evaluateOn x room false c
    let o := o.close c
    let output ← within o.value.displayCalls room fun _ => appendValue output o.value
    let collected := collected.merge (← o.context.knowledge.toTable)
    evaluateBranchOn x room rest output collected o.context

end

/-! ### Rules -/

namespace Grammar

/-- How rules are expanded in some room, given how a rule is in less. -/
def expanderIn (g : Grammar) (expand : Nat → Rule → Context σ → Except Fault (Outcome σ))
    (room : Nat) : Expander σ :=
  ⟨expand room, fun name c =>
    within 1 room fun room => (g.expanderBy (expand room)).expandNamed name c⟩

end Grammar

def Rule.expandOn [DrawSource σ] (g : Grammar) (l : DepthLimit) :
    (levels room : Nat) → Rule → Context σ → Except Fault (Outcome σ)
  | levels, room, r, c => within 1 room fun room =>
    if r.alternatives.isEmpty then
      .error (.evaluation (.noAlternatives r.name) (some ("$" ++ r.name)))
    else
      match levels with
      | 0 => .error (l.fault r.name)
      | levels + 1 => do
        let (alternative, draws) ← r.pick? c.draws
        let elements := match alternative with
          | some a => a.elements
          | none => []
        let inner := g.expanderIn fun room rule c => rule.expandOn g l levels room c
        let o ← within 1 room fun room =>
          evaluateElementsOn inner room elements "" { c with draws }
        return o.close c

namespace Grammar

def runOn [DrawSource σ] (stack : Nat) (g : Grammar) (l : DepthLimit) (c : Context σ) :
    Except Fault (Outcome σ) := do
  match g.rule? "start" with
  | none => throw (.evaluation .noStartRule none)
  | some rule => within 1 stack fun room => rule.expandOn g l l.levels room c

end Grammar

end ProseGrammar
