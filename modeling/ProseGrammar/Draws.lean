import ProseGrammar.Value.Display

/-!
# Draws

Evaluation takes its random decisions from a source of draws. The seeded source is a linear
congruential generator on 32 bits with a permuted output; its first state comes from an integer of
any size and sign, folded to 32 bits and scrambled. A script repeats its last draw for ever.
-/

namespace ProseGrammar

/-- A state from which a number can be drawn; the draw also gives the next state. -/
class DrawSource (σ : Type) where
  draw : σ → Float × σ

/-! ### Scripts -/

/-- Draws that are given in advance. -/
structure DrawScript where
  first : Float
  later : List Float

namespace DrawScript

def draw (s : DrawScript) : Float × DrawScript :=
  match s.later with
  | [] => (s.first, s)
  | next :: later => (s.first, ⟨next, later⟩)

instance : DrawSource DrawScript := ⟨draw⟩

end DrawScript

/-! ### The seeded generator -/

/-- The state of the seeded generator. -/
structure SeededRandom where
  state : UInt32
  deriving DecidableEq

namespace SeededRandom

/-- The exclusive or of the low and the high half of the last 64 bits of an integer in two's
complement. -/
def fold (seed : Int) : UInt32 :=
  let wide := (BitVec.ofInt 64 seed)
  UInt32.ofBitVec (wide.truncate 32 ^^^ (wide >>> 32).truncate 32)

/-- Spreads neighbouring numbers over all of the 32 bits. -/
def scramble (x : UInt32) : UInt32 :=
  let x := (x ^^^ (x >>> 16)) * 0x85EBCA6B
  let x := (x ^^^ (x >>> 13)) * 0xC2B2AE35
  x ^^^ (x >>> 16)

def ofSeed (seed : Int) : SeededRandom :=
  ⟨scramble (fold seed) * 1664525 + 1013904223⟩

def ofValue : Value → Except Fault SeededRandom
  | .number (.int n) => .ok (ofSeed n)
  | .bool b => .ok (ofSeed (if b then 1 else 0))
  | v => .error (.unsupportedOperands "&=" v.kind (Value.int 0).kind)

def inspect (seed : Value) : Except Fault String := do
  return "SeededRandom(seed=" ++ (← seed.inspect) ++ ")"

def next (r : SeededRandom) : SeededRandom :=
  ⟨r.state * 747796405 + 2891336453⟩

/-- The output of a state: a shift whose length its top bits choose, a product, and a last shift. -/
def output (r : SeededRandom) : UInt32 :=
  let word := ((r.state >>> ((r.state >>> 28) + 4)) ^^^ r.state) * 277803737
  (word >>> 22) ^^^ word

def drawWord (r : SeededRandom) : UInt32 × SeededRandom :=
  (r.next.output, r.next)

def draw (r : SeededRandom) : Float × SeededRandom :=
  (r.next.output.toFloat / 4294967296, r.next)

instance : DrawSource SeededRandom := ⟨draw⟩

end SeededRandom

end ProseGrammar
