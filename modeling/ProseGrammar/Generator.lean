import ProseGrammar.Evaluation.OnStack
import ProseGrammar.Grammar.Read
import ProseGrammar.Grammar.Source

/-!
# Generators

A generator is a grammar with settings. It is compiled once and executed as often as needed: an
execution expands the rule `start` against some knowledge and gives the text and the knowledge that
the run leaves. The draws come from a seed, the settings' own seed if none is given. Executions are
carried out on a stack; what they come to if it is large enough is a matter of the grammar alone.
-/

namespace ProseGrammar

/-! ### Settings -/

/-- What all executions of a generator share: a depth limit, and a seed or null. -/
structure Settings where
  depthLimit : DepthLimit
  defaultSeed : Value

namespace Settings

/-- A limit of 64 nested expansions and no seed. -/
def standard : Settings :=
  ⟨⟨64, 0⟩, .null⟩

def make (maxDepth : Int) (defaultSeed : Value) : Except Fault Settings :=
  if maxDepth < 1 then .error .badMaxDepth else .ok ⟨⟨maxDepth.toNat, 0⟩, defaultSeed⟩

end Settings

/-! ### Generators -/

/-- A grammar that is ready to be executed. -/
structure Generator where
  grammar : Grammar
  settings : Settings

/-- What an execution yields. -/
structure Execution where
  output : Value
  knowledge : Value

namespace Generator

variable {σ : Type}

def compile (reading : Reading) (settings : Settings) : Except Fault Generator := do
  return ⟨← reading.grammar, settings⟩

def source (g : Generator) : Except Fault String :=
  g.grammar.source

def knowledgeOf : Value → Except Fault Value
  | .null => .ok (.object [])
  | .object entries => .ok (.object entries)
  | v => .error (.knowledgeNotObject v.kind)

/-- The execution of a finished run. It is recorded with the seed that it was given, which must have
a text. -/
def finish (seed : Value) (o : Outcome σ) : Except Fault Execution := do
  let output ← if o.value.isNumber then Value.text <$> o.value.display else pure o.value
  let _ ← seed.inspect
  return ⟨output, o.context.knowledge⟩

/-- Goes on with the draws of a seed, or else of the default seed, or else of the seed `fresh`. -/
def seeded (g : Generator) (seed : Value) (fresh : Int)
    (next : Value → SeededRandom → Except Fault Execution) : Except Fault Execution := do
  match if seed.isNull then g.settings.defaultSeed else seed with
  | .null => next .null (SeededRandom.ofSeed fresh)
  | seed => next seed (← SeededRandom.ofValue seed)

/-! ### Executions -/

/-- Executes with draws from a given source, with as much room for calls as it takes. -/
def executeWith [DrawSource σ] (g : Generator) (knowledge seed : Value) (draws : σ) :
    Except Fault Execution := do
  let k ← knowledgeOf knowledge
  let o ← g.grammar.run g.settings.depthLimit ⟨k, [], draws⟩
  finish seed o

def execute (g : Generator) (knowledge seed : Value) (fresh : Int) : Except Fault Execution := do
  let k ← knowledgeOf knowledge
  g.seeded seed fresh (g.executeWith k)

/-- Executes on a stack. The knowledge is copied first, which no run is there to answer for. -/
def executeWithOn [DrawSource σ] (stack : Nat) (g : Generator) (knowledge seed : Value)
    (draws : σ) : Except Fault Execution := do
  let k ← knowledgeOf knowledge
  Stack.enter (.stack .copying) (k.copyCalls + 1) stack fun _ => do
    let o ← g.grammar.runOn stack g.settings.depthLimit ⟨k, [], draws⟩
    finish seed o

def executeOn (stack : Nat) (g : Generator) (knowledge seed : Value) (fresh : Int) :
    Except Fault Execution := do
  let k ← knowledgeOf knowledge
  g.seeded seed fresh (g.executeWithOn stack k)

end Generator

end ProseGrammar
