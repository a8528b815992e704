import ProseGrammar.Evaluation

/-!
# Threaded evaluation

The reference for how variables are scoped. It evaluates the same nodes in the same order, but there
is one frame of variables only: every part starts from the variables and the knowledge that the part
before it has left, nothing is copied and nothing is merged.
-/

namespace ProseGrammar

variable {σ : Type}

/-! ### Nodes -/

mutual

/-- Evaluates a node in one frame. As a branch of a conditional a group of any kind is running
text. -/
def Node.thread [DrawSource σ] (x : Expander σ) (asBranch : Bool) :
    Node → Context σ → Except Fault (Outcome σ)
  | .literal value, c => .ok ⟨value, c⟩
  | .rule name, c => readRule x name c
  | .reference target, c => readReference x target c
  | .assign target op expression, c => do
    let e ← expression.thread x false c
    assign target op e.value e.context
  | .binary left op right, c => do
    let l ← left.thread x false c
    let r ← right.thread x false l.context
    return ⟨← op.apply l.value r.value, r.context⟩
  | .conditional condition whenTrue whenFalse, c => do
    let test ← condition.thread x false c
    if test.value.isTruthy then whenTrue.thread x true test.context
    else if whenFalse.isMissing then return ⟨.text "", test.context⟩
    else whenFalse.thread x true test.context
  | .silent expression, c => do
    let e ← expression.thread x false c
    return ⟨.text "", e.context⟩
  | .group members _, c =>
    if asBranch then threadText x members "" c else threadList x members (.text "") c
  | .alternative a, c => a.thread x c
  | .definition r, c => x.expand r c
  | .missing, _ => .error (.evaluation (.notANode Value.null.kind) none)

def Alternative.thread [DrawSource σ] (x : Expander σ) :
    Alternative → Context σ → Except Fault (Outcome σ)
  | ⟨elements, _⟩, c => threadText x elements "" c

def threadText [DrawSource σ] (x : Expander σ) :
    List Node → (output : String) → Context σ → Except Fault (Outcome σ)
  | [], output, c => .ok ⟨.text output, c⟩
  | n :: rest, output, c => do
    let o ← n.thread x false c
    let output ← appendValue output o.value
    threadText x rest output o.context

def threadList [DrawSource σ] (x : Expander σ) :
    List Node → (last : Value) → Context σ → Except Fault (Outcome σ)
  | [], last, c => .ok ⟨last, c⟩
  | n :: rest, _, c => do
    let o ← n.thread x false c
    threadList x rest o.value o.context

end

/-! ### Rules -/

/-- Expands a rule in one frame, with a number of levels left. -/
def Rule.thread [DrawSource σ] (g : Grammar) (l : DepthLimit) :
    (levels : Nat) → Rule → Context σ → Except Fault (Outcome σ)
  | levels, r, c =>
    if r.alternatives.isEmpty then
      .error (.evaluation (.noAlternatives r.name) (some ("$" ++ r.name)))
    else
      match levels with
      | 0 => .error (l.fault r.name)
      | levels + 1 => do
        let (alternative, draws) ← r.pick? c.draws
        let elements := match alternative with
          | some a => a.elements
          | none => []
        let inner := g.expanderBy fun rule c => rule.thread g l levels c
        threadText inner elements "" { c with draws }

def Grammar.threader [DrawSource σ] (g : Grammar) (l : DepthLimit) (levels : Nat) : Expander σ :=
  g.expanderBy fun rule c => rule.thread g l levels c

end ProseGrammar
