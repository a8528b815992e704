import ProseGrammar.Fault
import ProseGrammar.Value

/-!
# The stack of calls

What stands inside of something is worked on by a call inside of a call, and only so many calls may
stand inside each other. The room on a stack is the number of calls that it still takes: whoever goes
inside leaves less of it, and where none is left the work is given up.

The calls that are counted are those that nest as deeply as grammars and values do. The few that each
of them makes besides, and that end before the next one begins, are not.
-/

namespace ProseGrammar

/-! ### Room -/

namespace Stack

/-- The calls that may stand inside each other where nothing else is said. -/
def standard : Nat := 1000

/-- Goes on inside of some more calls, with the room that they leave. -/
def enter {α : Type} (fault : Fault) (calls room : Nat) (next : Nat → Except Fault α) :
    Except Fault α :=
  if calls ≤ room then next (room - calls) else .error fault

theorem enter_succ {α : Type} (fault : Fault) (room : Nat) (next : Nat → Except Fault α) :
    enter fault 1 (room + 1) next = next room :=
  if_pos (Nat.le_add_left 1 room)

end Stack

/-! ### Values -/

/-- How many calls each level of a value takes, by its kind, and a value without parts. -/
structure CallCosts where
  list : Nat
  object : Nat
  weighted : Nat
  leaf : Nat

namespace Value

mutual

/-- The most calls that stand inside each other while a value is gone through. -/
def calls (costs : CallCosts) : Value → Nat
  | list items => itemCalls costs items + costs.list
  | object entries => entryCalls costs entries + costs.object
  | weighted value _ => value.calls costs + costs.weighted
  | _ => costs.leaf

def itemCalls (costs : CallCosts) : List Value → Nat
  | [] => 0
  | item :: items => max (item.calls costs) (itemCalls costs items)

def entryCalls (costs : CallCosts) : List (String × Value) → Nat
  | [] => 0
  | (_, value) :: entries => max (value.calls costs) (entryCalls costs entries)

end

/-- Each level is copied by a call for the value and one for its kind. -/
def copyCalls (v : Value) : Nat :=
  v.calls ⟨2, 2, 2, 1⟩

def displayCalls (v : Value) : Nat :=
  v.calls ⟨2, 1, 1, 1⟩

/-- A weighted value is shown by a call of its own. -/
def inspectCalls (v : Value) : Nat :=
  v.calls ⟨1, 1, 2, 0⟩

/-- A weighted value is written as an object that is made for it. -/
def writeCalls (v : Value) : Nat :=
  v.calls ⟨1, 1, 2, 0⟩

end Value

end ProseGrammar
