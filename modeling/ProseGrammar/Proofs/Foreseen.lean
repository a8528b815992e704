import ProseGrammar.Evaluation
import ProseGrammar.Proofs.Grammar.Form
import ProseGrammar.Proofs.Lines
import ProseGrammar.Proofs.Results

/-!
# Foreseen faults

A fault is foreseen if it is a failed evaluation for which the grammar or the knowledge is to blame,
or a number that is too large to be converted. The remaining faults, and the evaluations that fail
because a tree is malformed, are internal. On values of all kinds the operations of evaluation fail
in foreseen ways only, as long as their operators have a meaning and their paths are not empty; and
whatever they work on, they never fail because the limit on nested expansions is reached. The
message of a foreseen fault is one line if the names that the operation works on are.
-/

namespace ProseGrammar

/-! ### Faults -/

/-- Whether a failed evaluation means that a tree is malformed. -/
def EvaluationCause.isInternal : EvaluationCause → Bool
  | noAlternatives _ => true
  | unknownAssignment _ => true
  | unknownOperator _ => true
  | notANode _ => true
  | unresolved _ cause => cause.isInternal
  | _ => false

/-- Whether a fault is a failed evaluation of a well-formed tree, or a number that is too large to
be converted. -/
def Fault.isForeseen : Fault → Bool
  | evaluation cause _ => !cause.isInternal
  | integerText _ => true
  | integerRange => true
  | quotientRange => true
  | _ => false

/-- Whether a failed evaluation means that the limit on nested expansions is reached. -/
def EvaluationCause.isDepth : EvaluationCause → Bool
  | depthLimit _ => true
  | depthExhausted => true
  | unresolved _ cause => cause.isDepth
  | _ => false

def Fault.isDepth : Fault → Bool
  | evaluation cause _ => cause.isDepth
  | _ => false

/-- Whether a fault can come of an operation that expands no rules: the limit on expansions has no
part in it, it is foreseen if what the operation works on is sound, and if it is foreseen and the
names are lined, its message is one line. -/
def Fault.IsShallow (sound lined : Prop) (fault : Fault) : Prop :=
  fault.isDepth = false ∧ (sound → fault.isForeseen = true) ∧
    (lined → fault.isForeseen = true → Text.IsLine fault.message)

namespace Fault.IsShallow

variable {fault : Fault}

theorem foreseen (h : fault.IsShallow True False) : fault.isForeseen = true :=
  h.2.1 trivial

theorem lined (h : fault.IsShallow False True) :
    fault.isForeseen = true → Text.IsLine fault.message :=
  h.2.2 trivial

end Fault.IsShallow

/-! ### Faults of a class -/

/-- Whether a computation has a result or a fault of a class. -/
def FailsIn {α : Type} (F : Fault → Prop) (r : Except Fault α) : Prop :=
  ∀ fault, r = .error fault → F fault

section

variable {α β : Type} {F : Fault → Prop}

theorem failsIn_ok (a : α) : FailsIn F (.ok a : Except Fault α) := fun _ h => nomatch h

theorem failsIn_error {fault : Fault} (h : F fault) :
    FailsIn F (.error fault : Except Fault α) := by
  intro fault' heq
  cases heq
  exact h

theorem failsIn_mono {G : Fault → Prop} {r : Except Fault α} (h : FailsIn F r)
    (hFG : ∀ fault, F fault → G fault) : FailsIn G r :=
  fun fault heq => hFG fault (h fault heq)

/-- A step and its continuation, which may use what the step has given. -/
theorem failsIn_bind_ok {r : Except Fault α} {f : α → Except Fault β} (h : FailsIn F r)
    (hf : ∀ a, r = .ok a → FailsIn F (f a)) : FailsIn F (r >>= f) := by
  cases r with
  | error fault => exact failsIn_error (h fault rfl)
  | ok a => exact hf a rfl

theorem failsIn_bind {r : Except Fault α} {f : α → Except Fault β} (h : FailsIn F r)
    (hf : ∀ a, FailsIn F (f a)) : FailsIn F (r >>= f) :=
  failsIn_bind_ok h fun a _ => hf a

theorem failsIn_enter {fault : Fault} {calls room : Nat} {next : Nat → Except Fault α}
    (h : room < calls → F fault) (hnext : FailsIn F (next (room - calls))) :
    FailsIn F (Stack.enter fault calls room next) := by
  unfold Stack.enter
  split
  · exact hnext
  next hroom => exact failsIn_error (h (Nat.not_le.mp hroom))

theorem failsIn_map {r : Except Fault α} (f : α → β) (h : FailsIn F r) : FailsIn F (f <$> r) := by
  cases r with
  | error fault => exact failsIn_error (h fault rfl)
  | ok a => exact failsIn_ok (f a)

end

/-- Whether a computation has a result or a foreseen fault. -/
def Foreseen {α : Type} (r : Except Fault α) : Prop :=
  FailsIn (fun fault => fault.isForeseen = true) r

/-- Whether a computation has a result, or fails in a way that does not concern the limit on nested
expansions. -/
def WithinDepth {α : Type} (r : Except Fault α) : Prop :=
  FailsIn (fun fault => fault.isDepth = false) r

/-- Whether a computation has a result, or fails with a message of one line where the fault is
foreseen. -/
def Lined {α : Type} (r : Except Fault α) : Prop :=
  FailsIn (fun fault => fault.isForeseen = true → Text.IsLine fault.message) r

/-- Whether a computation has a result, or fails as an operation can that expands no rules. -/
def Shallow {α : Type} (sound lined : Prop) (r : Except Fault α) : Prop :=
  FailsIn (Fault.IsShallow sound lined) r

namespace Shallow

variable {α : Type} {sound lined : Prop}

theorem error {fault : Fault} (hdepth : fault.isDepth = false)
    (hforeseen : sound → fault.isForeseen = true)
    (hline : lined → fault.isForeseen = true → Text.IsLine fault.message) :
    Shallow sound lined (.error fault : Except Fault α) :=
  failsIn_error ⟨hdepth, hforeseen, hline⟩

/-- Nothing is said of the faults of operations on what is not sound. -/
theorem unforeseen {fault : Fault} (hdepth : fault.isDepth = false)
    (hforeseen : fault.isForeseen = false) (hsound : ¬sound) :
    Shallow sound lined (.error fault : Except Fault α) := by
  refine error hdepth (fun h => absurd h hsound) fun _ h => ?_
  rw [hforeseen] at h
  cases h

theorem foreseen {r : Except Fault α} (h : Shallow True False r) : Foreseen r :=
  failsIn_mono h fun _ => Fault.IsShallow.foreseen

theorem withinDepth {r : Except Fault α} (h : Shallow False False r) : WithinDepth r :=
  failsIn_mono h fun _ hfault => hfault.1

theorem toLined {r : Except Fault α} (h : Shallow False True r) : Lined r :=
  failsIn_mono h fun _ => Fault.IsShallow.lined

end Shallow

variable {sound lined : Prop}

namespace Shallow

variable {α : Type}

/-! Numbers that are too large to be converted. -/

theorem quotientRange : Shallow sound lined (.error .quotientRange : Except Fault α) :=
  error rfl (fun _ => rfl) fun _ _ => by decide +kernel

theorem evaluation {cause : EvaluationCause} {path : Option String} (hdepth : cause.isDepth = false)
    (hinternal : cause.isInternal = false) (hcause : lined → Text.IsLine cause.message)
    (hpath : lined → ∀ name ∈ path, Text.IsLine name) :
    Shallow sound lined (.error (.evaluation cause path) : Except Fault α) := by
  refine error hdepth (fun _ => ?_) fun hl _ => isLine_evaluation (hcause hl) (hpath hl)
  rw [Fault.isForeseen, hinternal]
  rfl

end Shallow

theorem isShallow_integerText (digits : Option Nat) :
    (Fault.integerText digits).IsShallow sound lined :=
  ⟨rfl, fun _ => rfl, fun _ _ => isLine_integerText digits⟩

theorem isShallow_integerRange : Fault.integerRange.IsShallow sound lined :=
  ⟨rfl, fun _ => rfl, fun _ _ => by decide +kernel⟩

/-! ### Texts of values

Writing and reading numbers fails on integers with too many digits only. -/

section

variable {F : Fault → Prop}

theorem failsIn_integerText (hF : ∀ digits, F (.integerText digits)) (n : Int) :
    FailsIn F (Decimal.integerText n) := by
  unfold Decimal.integerText
  split
  · exact failsIn_ok _
  · exact failsIn_error (hF none)

theorem Number.failsIn_ofNumeral (hF : ∀ digits, F (.integerText digits))
    (n : Numeral) : FailsIn F (ofNumeral n) := by
  unfold ofNumeral
  split
  · apply failsIn_map
    unfold Numeral.integer
    split
    · exact failsIn_ok _
    · exact failsIn_error (hF _)
  · exact failsIn_ok _

theorem Number.failsIn_inspect (hF : ∀ digits, F (.integerText digits)) (n : Number) :
    FailsIn F n.inspect := by
  cases n with
  | int n => exact failsIn_integerText hF n
  | float x => exact failsIn_ok _

theorem Number.failsIn_display (hF : ∀ digits, F (.integerText digits)) (n : Number) :
    FailsIn F n.display := by
  unfold display
  split
  · exact failsIn_integerText hF _
  · split
    · exact failsIn_ok _
    · exact failsIn_ok _
    · split
      · exact failsIn_integerText hF _
      · exact failsIn_ok _

namespace Value

mutual

theorem failsIn_inspect (hF : ∀ digits, F (.integerText digits)) :
    (v : Value) → FailsIn F v.inspect
  | null => failsIn_ok _
  | bool _ => failsIn_ok _
  | number n => n.failsIn_inspect hF
  | text _ => failsIn_ok _
  | list items => failsIn_bind (failsIn_inspectItems hF items) fun _ => failsIn_ok _
  | object entries => failsIn_bind (failsIn_inspectEntries hF entries) fun _ => failsIn_ok _
  | weighted value _ => failsIn_bind (failsIn_inspect hF value) fun _ => failsIn_ok _

theorem failsIn_inspectItems (hF : ∀ digits, F (.integerText digits)) :
    (items : List Value) → FailsIn F (inspectItems items)
  | [] => failsIn_ok _
  | item :: rest => failsIn_bind (failsIn_inspect hF item) fun _ =>
    failsIn_bind (failsIn_inspectItems hF rest) fun _ => failsIn_ok _

theorem failsIn_inspectEntries (hF : ∀ digits, F (.integerText digits)) :
    (entries : List (String × Value)) → FailsIn F (inspectEntries entries)
  | [] => failsIn_ok _
  | (_, value) :: rest => failsIn_bind (failsIn_inspect hF value) fun _ =>
    failsIn_bind (failsIn_inspectEntries hF rest) fun _ => failsIn_ok _

end

mutual

theorem failsIn_display (hF : ∀ digits, F (.integerText digits)) :
    (v : Value) → FailsIn F v.display
  | null => failsIn_ok _
  | bool _ => failsIn_ok _
  | number n => n.failsIn_display hF
  | text _ => failsIn_ok _
  | list items => failsIn_bind (failsIn_displayItems hF items) fun _ => failsIn_ok _
  | object entries => failsIn_inspect hF (object entries)
  | weighted value _ => failsIn_display hF value

theorem failsIn_displayItems (hF : ∀ digits, F (.integerText digits)) :
    (items : List Value) → FailsIn F (displayItems items)
  | [] => failsIn_ok _
  | item :: rest => failsIn_bind (failsIn_display hF item) fun _ =>
    failsIn_bind (failsIn_displayItems hF rest) fun _ => failsIn_ok _

end

theorem failsIn_toNumber? (hF : ∀ digits, F (.integerText digits)) (v : Value) :
    FailsIn F v.toNumber? := by
  cases v with
  | number n => exact failsIn_ok _
  | text s =>
    show FailsIn F (numberOfText? s)
    unfold numberOfText?
    split
    · exact failsIn_map _ (Number.failsIn_ofNumeral hF _)
    · exact failsIn_ok _
  | _ => exact failsIn_ok _

theorem failsIn_coerce (hF : ∀ digits, F (.integerText digits)) (v : Value) :
    FailsIn F v.coerce := by
  refine failsIn_bind (v.failsIn_toNumber? hF) fun n => ?_
  split <;> exact failsIn_ok _

end Value

end

namespace Value

theorem shallow_inspect (v : Value) : Shallow sound lined v.inspect :=
  v.failsIn_inspect isShallow_integerText

theorem shallow_display (v : Value) : Shallow sound lined v.display :=
  v.failsIn_display isShallow_integerText

theorem shallow_toNumber? (v : Value) : Shallow sound lined v.toNumber? :=
  v.failsIn_toNumber? isShallow_integerText

theorem shallow_coerce (v : Value) : Shallow sound lined v.coerce :=
  v.failsIn_coerce isShallow_integerText

end Value

/-! ### Numbers -/

namespace Number

theorem failsIn_floatOfInt {F : Fault → Prop} (hrange : F .integerRange) (n : Int) :
    FailsIn F (floatOfInt n) := by
  unfold floatOfInt
  split
  · exact failsIn_ok _
  · exact failsIn_error hrange

theorem failsIn_toFloat {F : Fault → Prop} (hrange : F .integerRange) (n : Number) :
    FailsIn F n.toFloat := by
  cases n with
  | int n => exact failsIn_floatOfInt hrange n
  | float x => exact failsIn_ok x

theorem failsIn_lift {F : Fault → Prop} (hrange : F .integerRange) (onInts : Int → Int → Int)
    (onFloats : Float → Float → Float) (a b : Number) : FailsIn F (lift onInts onFloats a b) := by
  unfold lift
  split
  · exact failsIn_ok _
  · refine failsIn_bind (failsIn_toFloat hrange a) fun x => ?_
    exact failsIn_bind (failsIn_toFloat hrange b) fun y => failsIn_ok _

theorem shallow_floatOfInt (n : Int) : Shallow sound lined (floatOfInt n) :=
  failsIn_floatOfInt isShallow_integerRange n

theorem shallow_lift (onInts : Int → Int → Int) (onFloats : Float → Float → Float)
    (a b : Number) : Shallow sound lined (lift onInts onFloats a b) :=
  failsIn_lift isShallow_integerRange onInts onFloats a b

theorem shallow_div (a b : Number) : Shallow sound lined (a.div b) := by
  unfold div
  split
  · split
    · exact failsIn_ok _
    · exact Shallow.quotientRange
  · refine failsIn_bind (failsIn_toFloat isShallow_integerRange a) fun x => ?_
    exact failsIn_bind (failsIn_toFloat isShallow_integerRange b) fun y => failsIn_ok _

end Number

/-! ### Operators -/

theorem BinaryOp.shallow_onNumbers {op : BinaryOp} (hop : sound → op.isKnown = true)
    (a b : Number) : Shallow sound lined (op.onNumbers a b) := by
  have hdivide : Shallow sound lined (if b.isZero then .error (.evaluation .divisionByZero none)
      else a.div b) := by
    split
    · exact Shallow.evaluation rfl rfl (fun _ => by decide +kernel) nofun
    · exact a.shallow_div b
  cases op with
  | add => exact failsIn_map _ (Number.shallow_lift _ _ a b)
  | subtract => exact failsIn_map _ (Number.shallow_lift _ _ a b)
  | multiply => exact failsIn_map _ (Number.shallow_lift _ _ a b)
  | divide => exact failsIn_map _ hdivide
  | other symbol => exact Shallow.unforeseen rfl rfl fun h => nomatch hop h
  | _ => exact failsIn_ok _

theorem BinaryOp.shallow_onTexts {op : BinaryOp} (hop : sound → op.isKnown = true)
    (left right : Value) : Shallow sound lined (op.onTexts left right) := by
  refine failsIn_bind left.shallow_display fun l => ?_
  refine failsIn_bind right.shallow_display fun r => ?_
  have hneeds : op.isKnown = true → Shallow sound lined
      (.error (.evaluation (.needsNumbers op.symbol l r) none) : Except Fault Value) := by
    intro hknown
    exact Shallow.evaluation rfl rfl (fun _ => isLine_needsNumbers (isLine_symbol hknown) l r) nofun
  cases op with
  | add => exact failsIn_ok _
  | subtract => exact hneeds rfl
  | multiply => exact hneeds rfl
  | divide => exact hneeds rfl
  | other symbol => exact Shallow.unforeseen rfl rfl fun h => nomatch hop h
  | _ => exact failsIn_ok _

theorem BinaryOp.shallow_apply {op : BinaryOp} (hop : sound → op.isKnown = true)
    (left right : Value) : Shallow sound lined (op.apply left right) := by
  refine failsIn_bind left.trimmed.shallow_toNumber? fun a => ?_
  refine failsIn_bind right.trimmed.shallow_toNumber? fun b => ?_
  split
  · exact shallow_onNumbers hop _ _
  · exact shallow_onTexts hop _ _

/-! ### Updates -/

namespace Value

/-- What an update other than a plain assignment starts from. -/
def start (stored : Option Value) (value : Value) : Except Fault Value :=
  match stored.getD null with
  | null => value.initial
  | v => pure v

theorem update_add (stored : Option Value) (value : Value) (target : String) :
    update .add stored value target =
      start stored value >>= fun first => first.increase value := by
  unfold update start
  cases stored.getD null <;> rfl

theorem update_subtract (stored : Option Value) (value : Value) (target : String) :
    update .subtract stored value target =
      start stored value >>= fun first => first.decrease value target := by
  unfold update start
  cases stored.getD null <;> rfl

theorem update_other (symbol : String) (stored : Option Value) (value : Value) (target : String) :
    update (.other symbol) stored value target = (do
      let first ← start stored value
      let _ ← first.toNumber?
      let _ ← value.toNumber?
      throw (.evaluation (.unknownAssignment symbol) (some target))) := by
  unfold update start
  cases stored.getD null <;> rfl

section

variable {F : Fault → Prop} (hdigits : ∀ digits, F (.integerText digits)) (hrange : F .integerRange)

include hdigits

theorem failsIn_start (stored : Option Value) (value : Value) : FailsIn F (start stored value) := by
  unfold start
  split
  · refine failsIn_bind (value.failsIn_toNumber? hdigits) fun n => ?_
    split <;> exact failsIn_ok _
  · exact failsIn_ok _

include hrange

theorem failsIn_increase (stored value : Value) : FailsIn F (stored.increase value) := by
  refine failsIn_bind (stored.failsIn_toNumber? hdigits) fun a => ?_
  refine failsIn_bind (value.failsIn_toNumber? hdigits) fun b => ?_
  split
  · exact failsIn_map _ (Number.failsIn_lift hrange _ _ _ _)
  · exact failsIn_ok _
  · refine failsIn_bind (stored.failsIn_display hdigits) fun _ => ?_
    exact failsIn_bind (value.failsIn_display hdigits) fun _ => failsIn_ok _

theorem failsIn_decrease (stored value : Value) {target : String}
    (htext : F (.evaluation .subtractionFromText (some target))) :
    FailsIn F (stored.decrease value target) := by
  refine failsIn_bind (stored.failsIn_toNumber? hdigits) fun a => ?_
  refine failsIn_bind (value.failsIn_toNumber? hdigits) fun b => ?_
  split
  · exact failsIn_map _ (Number.failsIn_lift hrange _ _ _ _)
  · exact failsIn_error htext

/-- An update fails on a number, on what is no number, or because its operator has no meaning. -/
theorem failsIn_update (op : AssignOp) (stored : Option Value) (value : Value) {target : String}
    (htext : F (.evaluation .subtractionFromText (some target)))
    (hother : ∀ symbol, op = .other symbol →
      F (.evaluation (.unknownAssignment symbol) (some target))) :
    FailsIn F (update op stored value target) := by
  have hstart := failsIn_start hdigits stored value
  cases op with
  | set => exact failsIn_ok value
  | add =>
    rw [update_add]
    exact failsIn_bind hstart fun first => failsIn_increase hdigits hrange first value
  | subtract =>
    rw [update_subtract]
    exact failsIn_bind hstart fun first => failsIn_decrease hdigits hrange first value htext
  | other symbol =>
    rw [update_other]
    refine failsIn_bind hstart fun first => ?_
    refine failsIn_bind (first.failsIn_toNumber? hdigits) fun _ => ?_
    refine failsIn_bind (value.failsIn_toNumber? hdigits) fun _ => ?_
    exact failsIn_error (hother symbol rfl)

end

theorem shallow_update {op : AssignOp} (hop : sound → op.isKnown = true) (stored : Option Value)
    (value : Value) {target : String} (htarget : lined → Text.IsLine target) :
    Shallow sound lined (update op stored value target) := by
  refine failsIn_update isShallow_integerText isShallow_integerRange op stored value ?_ ?_
  · refine ⟨rfl, fun _ => rfl, fun hl _ => ?_⟩
    refine isLine_evaluation (by decide +kernel) ?_
    rintro _ ⟨⟩
    exact htarget hl
  · rintro symbol rfl
    exact ⟨rfl, fun hsound => (nomatch hop hsound), fun _ hforeseen => nomatch hforeseen⟩

end Value

/-! ### Paths -/

theorem Knowledge.shallow_write {op : AssignOp} (hop : sound → op.isKnown = true) (value : Value)
    {target : String} (htarget : lined → Text.IsLine target) (path : List String)
    (hpath : sound → path ≠ []) (hkeys : lined → ∀ key ∈ path, Text.IsLine key) (t : Knowledge) :
    Shallow sound lined (Knowledge.write op value target path t) := by
  induction path generalizing t with
  | nil => exact Shallow.unforeseen rfl rfl fun h => absurd rfl (hpath h)
  | cons key path ih =>
    cases path with
    | nil => exact failsIn_bind (Value.shallow_update hop _ value htarget) fun _ => failsIn_ok _
    | cons next path =>
      have hinner := ih (fun _ => List.cons_ne_nil _ _)
        fun hl => (List.forall_mem_cons.mp (hkeys hl)).2
      unfold Knowledge.write
      dsimp only
      split
      · refine failsIn_bind (failsIn_ok []) fun inner => ?_
        exact failsIn_bind (hinner inner) fun _ => failsIn_ok _
      next entries _ =>
        refine failsIn_bind (failsIn_ok entries) fun inner => ?_
        exact failsIn_bind (hinner inner) fun _ => failsIn_ok _
      · refine Shallow.evaluation rfl rfl (fun hl => ?_) fun hl => ?_
        · exact isLine_assignThroughProperty (List.forall_mem_cons.mp (hkeys hl)).1
        · rintro _ ⟨⟩
          exact htarget hl

namespace Value

theorem shallow_write {op : AssignOp} (hop : sound → op.isKnown = true) (value : Value)
    {target : String} (htarget : lined → Text.IsLine target) (path : List String)
    (hpath : sound → path ≠ []) (hkeys : lined → ∀ key ∈ path, Text.IsLine key) (root : Value)
    (hroot : sound → ∃ t, root = object t) :
    Shallow sound lined (write op value target path root) := by
  unfold write
  split
  next entries =>
    exact failsIn_bind (Knowledge.shallow_write hop value htarget path hpath hkeys entries) fun _ =>
      failsIn_ok _
  · exact Shallow.unforeseen rfl rfl fun h => absurd rfl (hpath h)
  next hobject =>
    have hunsound : ¬sound := fun h => (hroot h).elim hobject
    split
    · exact Shallow.unforeseen rfl rfl hunsound
    · exact Shallow.unforeseen rfl rfl hunsound
  next hobject _ _ =>
    exact Shallow.unforeseen rfl rfl fun h => ((hroot h).elim hobject).elim

theorem shallow_descend (current : Value) (path : List String)
    (hkeys : lined → ∀ key ∈ path, Text.IsLine key) :
    Shallow sound lined (current.descend path) := by
  induction path generalizing current with
  | nil => exact failsIn_ok current
  | cons key path ih =>
    unfold descend
    split
    · exact ih _ fun hl => (List.forall_mem_cons.mp (hkeys hl)).2
    · refine failsIn_bind current.shallow_display fun shown => ?_
      refine Shallow.evaluation rfl rfl (fun hl => ?_) nofun
      exact isLine_valueNotObject (List.forall_mem_cons.mp (hkeys hl)).1 shown

theorem resolve_cause {place : List String} {current : Value} {path : List String}
    {cause : EvaluationCause} (h : resolve place current path = .error cause) :
    cause.isDepth = false ∧ cause.isInternal = false := by
  induction path generalizing place current with
  | nil => cases h
  | cons key path ih =>
    unfold resolve at h
    dsimp only at h
    split at h
    · split at h
      · cases h
        exact ⟨rfl, rfl⟩
      · cases h
        exact ⟨rfl, rfl⟩
      · exact ih h
    · cases h
      exact ⟨rfl, rfl⟩

/-! ### Tables -/

theorem withinDepth_key (v : Value) : WithinDepth v.key := by
  cases v with
  | text s => exact failsIn_ok s
  | list items => exact failsIn_error rfl
  | object entries => exact failsIn_error rfl
  | weighted value weight => exact failsIn_error rfl
  | null => exact (shallow_inspect null).withinDepth
  | bool b => exact (shallow_inspect (bool b)).withinDepth
  | number n => exact (shallow_inspect (number n)).withinDepth

theorem withinDepth_mergePairs (index : Nat) (pairs : List Value) (t : Table Value) :
    WithinDepth (mergePairs index pairs t) := by
  induction pairs generalizing index t with
  | nil => exact failsIn_ok t
  | cons pair rest ih =>
    unfold mergePairs
    split
    · exact failsIn_error rfl
    next k value _ => exact failsIn_bind k.withinDepth_key fun _ => ih _ _
    · exact failsIn_error rfl

theorem withinDepth_toTable (v : Value) : WithinDepth v.toTable := by
  unfold toTable
  split
  · exact failsIn_ok _
  · split
    · exact withinDepth_mergePairs _ _ _
    · exact failsIn_error rfl

end Value

end ProseGrammar
