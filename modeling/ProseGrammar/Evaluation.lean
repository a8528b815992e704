import ProseGrammar.Draws
import ProseGrammar.Evaluation.Operators
import ProseGrammar.Knowledge
import ProseGrammar.Selection
import ProseGrammar.Text.Prose
import ProseGrammar.Value.Weighted

/-!
# Evaluation

Evaluating a node in a context gives a value and the context that it leaves: the knowledge, the
frame of variables and the source of draws. Knowledge passes from each part to the next. A branch
works on a copy of its parent's frame, and once it has finished the parent takes the bindings of the
copy over.

Evaluation follows the structure of the nodes; a rule that a node refers to or contains is expanded
by an argument. Rules are expanded by recursion on the number of levels that the depth limit leaves,
so evaluation always ends.
-/

namespace ProseGrammar

/-! ### Contexts -/

/-- What an evaluation starts from; the frame holds the values of variables. -/
structure Context (σ : Type) where
  knowledge : Value
  frame : Table Value
  draws : σ

/-- What an evaluation ends in: its value and what the next one starts from. -/
structure Outcome (σ : Type) where
  value : Value
  context : Context σ

namespace Outcome

variable {σ : Type}

/-- Closes a branch that was started in the frame of `parent`: its bindings are taken over. -/
def close (parent : Context σ) (o : Outcome σ) : Outcome σ :=
  ⟨o.value, { o.context with frame := Table.merge parent.frame o.context.frame }⟩

end Outcome

/-- How rules are expanded. -/
structure Expander (σ : Type) where
  /-- Expands a rule. -/
  expand : Rule → Context σ → Except Fault (Outcome σ)
  /-- Expands the rule of a name; nothing comes of a name that no rule has. -/
  expandNamed : String → Context σ → Except Fault (Option (Outcome σ))

/-! ### Running text -/

/-- Appends a value to the text so far; null and empty text add nothing. -/
def appendValue (output : String) (value : Value) : Except Fault String :=
  match value with
  | .null => .ok output
  | .text s => .ok (Text.joinProse output s)
  | v => do return Text.joinProse output (← v.display)

/-! ### References -/

variable {σ : Type}

/-- One item of a list, by weight if any item has one. Empty lists have empty text. -/
def selectItem [DrawSource σ] (items : List Value) (c : Context σ) :
    Except Fault (Outcome σ) := do
  if items.isEmpty then return ⟨.text "", c⟩
  let choices := items.map Value.choice
  let (draw, draws) := DrawSource.draw c.draws
  let index ←
    if choices.any fun choice => choice.isWeighted then
      let weights := choices.map fun choice => choice.weight
      pure (Selection.weightedIndex .total weights draw).run
    else Selection.uniformIndex Selection.floorFloat (Number.floatOfInt ·) choices.length draw
  match choices[index]? with
  | some choice => return ⟨choice.value, { c with draws }⟩
  | none => throw .indexRange

/-- The value at a path of knowledge; of a list one item is selected. -/
def readKnowledge [DrawSource σ] (path : List String) (c : Context σ) :
    Except Fault (Outcome σ) := do
  match Value.resolve ["$$"] c.knowledge path with
  | .error cause => throw (.evaluation cause none)
  | .ok (.list items) => selectItem items c
  | .ok value => return ⟨value, c⟩

/-- The value at a path into a variable, as a number if it is numeric. -/
def readVariable (name : String) (path : List String) (c : Context σ) :
    Except Fault (Outcome σ) := do
  match c.frame.get? name with
  | none => throw (.evaluation (.undefined name) none)
  | some value => return ⟨← (← value.descend path).coerce, c⟩

/-- Names the reference that could not be resolved in the fault of an evaluation. -/
def blameReference (target : Reference) (result : Except Fault (Outcome σ)) :
    Except Fault (Outcome σ) :=
  match result with
  | .error (.evaluation cause _) =>
    .error (.evaluation (.unresolved target.dotted cause) (some target.dotted))
  | result => result

/-- The value of a reference. A name that no variable has is the name of a rule. -/
def readReference [DrawSource σ] (x : Expander σ) (target : Reference) (c : Context σ) :
    Except Fault (Outcome σ) := do
  match target.path with
  | [] => throw .indexRange
  | name :: path =>
    if target.isKnowledge then blameReference target (readKnowledge target.path c)
    else
      let expanded ←
        if path.isEmpty && !c.frame.has name then x.expandNamed name c else pure none
      match expanded with
      | some outcome => return outcome
      | none => blameReference target (readVariable name path c)

/-- The value of a rule reference. A variable of the name goes before the rule. -/
def readRule (x : Expander σ) (name : String) (c : Context σ) :
    Except Fault (Outcome σ) := do
  match c.frame.get? name with
  | some value => return ⟨← value.coerce, c⟩
  | none =>
    match ← x.expandNamed name c with
    | some outcome => return outcome
    | none => throw (.evaluation (.undefined name) (some ("$" ++ name)))

/-! ### Assignments -/

/-- Assigns to a path of knowledge. Texts that are set are stored as numbers if they are numeric.
Each assignment is recorded with the assigned and the stored value, both of which must have a
text. -/
def assignKnowledge (target : Reference) (op : AssignOp) (value : Value) (c : Context σ) :
    Except Fault (Outcome σ) := do
  let value ← if op = .set then value.coerce else pure value
  let (stored, knowledge) ← Value.write op value target.dotted target.path c.knowledge
  let _ ← value.inspect
  let _ ← stored.inspect
  return ⟨stored, { c with knowledge }⟩

def assignVariable (target : Reference) (op : AssignOp) (value : Value) (c : Context σ) :
    Except Fault (Outcome σ) := do
  match target.path with
  | [] => throw .indexRange
  | [name] =>
    let stored ← Value.update op (c.frame.get? name) value target.dotted
    return ⟨stored, { c with frame := c.frame.set name stored }⟩
  | name :: path =>
    let root ← match (c.frame.get? name).getD .null with
      | .null => pure []
      | .object entries => pure entries
      | _ => throw (.evaluation (.assignThroughVariable name) (some target.dotted))
    let (stored, root) ← Knowledge.write op value target.dotted path root
    return ⟨stored, { c with frame := c.frame.set name (.object root) }⟩

def assign (target : Reference) (op : AssignOp) (value : Value) (c : Context σ) :
    Except Fault (Outcome σ) :=
  if target.isKnowledge then assignKnowledge target op value c
  else assignVariable target op value c

/-! ### Nodes -/

mutual

/-- Evaluates a node. As a branch of a conditional a group of any kind is running text. -/
def Node.evaluate [DrawSource σ] (x : Expander σ) (asBranch : Bool) :
    Node → Context σ → Except Fault (Outcome σ)
  | .literal value, c => .ok ⟨value, c⟩
  | .rule name, c => readRule x name c
  | .reference target, c => readReference x target c
  | .assign target op expression, c => do
    let e ← expression.evaluate x false c
    assign target op e.value e.context
  | .binary left op right, c => do
    let l ← left.evaluate x false c
    let r ← right.evaluate x false l.context
    let r := r.close l.context
    return ⟨← op.apply l.value r.value, r.context⟩
  | .conditional condition whenTrue whenFalse, c => do
    let test ← condition.evaluate x false c
    if test.value.isTruthy then
      return (← whenTrue.evaluate x true test.context).close test.context
    else if whenFalse.isMissing then return ⟨.text "", test.context⟩
    else return (← whenFalse.evaluate x true test.context).close test.context
  | .silent expression, c => do
    let e ← expression.evaluate x false c
    return ⟨.text "", e.context⟩
  | .group members _, c => do
    if asBranch then evaluateBranch x members "" (← c.knowledge.toTable) c
    else evaluateList x members (.text "") c
  | .alternative a, c => a.evaluate x c
  | .definition r, c => x.expand r c
  | .missing, _ => .error (.evaluation (.notANode Value.null.kind) none)

def Alternative.evaluate [DrawSource σ] (x : Expander σ) :
    Alternative → Context σ → Except Fault (Outcome σ)
  | ⟨elements, _⟩, c => evaluateElements x elements "" c

/-- Evaluates elements in order; the value is their running text, which starts with `output`. -/
def evaluateElements [DrawSource σ] (x : Expander σ) :
    List Node → (output : String) → Context σ → Except Fault (Outcome σ)
  | [], output, c => .ok ⟨.text output, c⟩
  | n :: rest, output, c => do
    let o ← n.evaluate x false c
    let o := o.close c
    let output ← appendValue output o.value
    evaluateElements x rest output o.context

/-- Evaluates the members of a list in order; the value is that of the last one. -/
def evaluateList [DrawSource σ] (x : Expander σ) :
    List Node → (last : Value) → Context σ → Except Fault (Outcome σ)
  | [], last, c => .ok ⟨last, c⟩
  | n :: rest, _, c => do
    let o ← n.evaluate x false c
    let o := o.close c
    evaluateList x rest o.value o.context

/-- Evaluates the parts of a branch in order; the value is their running text. The knowledge that is
left collects what every part has left, a later part's value of a key before an earlier one's. -/
def evaluateBranch [DrawSource σ] (x : Expander σ) :
    List Node → (output : String) → (collected : Table Value) → Context σ →
      Except Fault (Outcome σ)
  | [], output, collected, c => .ok ⟨.text output, { c with knowledge := .object collected }⟩
  | n :: rest, output, collected, c => do
    let o ← n.evaluate x false c
    let o := o.close c
    let output ← appendValue output o.value
    let collected := collected.merge (← o.context.knowledge.toTable)
    evaluateBranch x rest output collected o.context

end

/-! ### Rules -/

/-- The limit on how many rule expansions may stand inside each other: the depth that none may
reach, and the depth at which evaluation starts. -/
structure DepthLimit where
  limit : Nat
  start : Int := 0
  deriving DecidableEq

namespace DepthLimit

/-- The number of levels from the start to the limit. -/
def levels (l : DepthLimit) : Nat :=
  (l.limit - l.start).toNat

def fault (l : DepthLimit) (rule : String) : Fault :=
  .evaluation (.depthLimit l.limit) (some ("$" ++ rule))

end DepthLimit

namespace Grammar

/-- How rules are expanded by name, given how a rule is. The text that a name expands to loses the
white space at its ends. -/
def expanderBy (g : Grammar) (expand : Rule → Context σ → Except Fault (Outcome σ)) :
    Expander σ :=
  ⟨expand, fun name c =>
    match g.rule? name with
    | none => .ok none
    | some rule => do
      let o ← expand rule c
      return some ⟨o.value.trimmed, o.context⟩⟩

end Grammar

namespace Rule

/-- The alternative to expand; a draw is taken if there are several. -/
def pick? [DrawSource σ] (r : Rule) (draws : σ) : Except Fault (Option Alternative × σ) :=
  match r.alternatives with
  | [only] => .ok (some only, draws)
  | alternatives => do
    let (draw, draws) := DrawSource.draw draws
    let weights := alternatives.map fun a => a.weight
    let index ← Selection.weightedIndex .values weights (.float draw)
    return (alternatives[index]?, draws)

def expand [DrawSource σ] (g : Grammar) (l : DepthLimit) :
    (levels : Nat) → Rule → Context σ → Except Fault (Outcome σ)
  | levels, r, c =>
    if r.alternatives.isEmpty then
      .error (.evaluation (.noAlternatives r.name) (some ("$" ++ r.name)))
    else
      match levels with
      | 0 => .error (l.fault r.name)
      | levels + 1 => do
        let (alternative, draws) ← r.pick? c.draws
        let elements := match alternative with
          | some a => a.elements
          | none => []
        let inner := g.expanderBy fun rule c => rule.expand g l levels c
        let o ← evaluateElements inner elements "" { c with draws }
        return o.close c

end Rule

namespace Grammar

def expander [DrawSource σ] (g : Grammar) (l : DepthLimit) (levels : Nat) : Expander σ :=
  g.expanderBy fun rule c => rule.expand g l levels c

def run [DrawSource σ] (g : Grammar) (l : DepthLimit) (c : Context σ) :
    Except Fault (Outcome σ) := do
  match g.rule? "start" with
  | none => throw (.evaluation .noStartRule none)
  | some rule => rule.expand g l l.levels c

/-- Evaluates nodes one after the other, to the last one or the first fault. -/
def trace [DrawSource σ] (g : Grammar) (l : DepthLimit) :
    List Node → Context σ → List (Except Fault (Outcome σ))
  | [], _ => []
  | n :: rest, c =>
    match n.evaluate (g.expander l l.levels) false c with
    | .error fault => [.error fault]
    | .ok o => .ok o :: trace g l rest o.context

end Grammar

end ProseGrammar
