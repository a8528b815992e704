import ProseGrammar.Stack

/-!
# Results and faults

A computation in steps has a result if all of its steps have one. Two computations that go side by
side are compared by their results where they have any, and otherwise by their faults.
-/

namespace ProseGrammar

/-! ### Steps -/

theorem bind_ok_iff {α β : Type} (x : Except Fault α) (f : α → Except Fault β) (b : β) :
    x >>= f = .ok b ↔ ∃ a, x = .ok a ∧ f a = .ok b := by
  cases x with
  | error fault => simp [bind, Except.bind]
  | ok a => simp [bind, Except.bind]

theorem bind_congr_ok {α β : Type} (x : Except Fault α) (f g : α → Except Fault β)
    (h : ∀ a, x = .ok a → f a = g a) : x >>= f = x >>= g := by
  cases x with
  | error fault => rfl
  | ok a => exact h a rfl

/-! ### Results of a class -/

/-- Whether the result of a computation, if it has one, is of a class. -/
def GivesIn {α : Type} (P : α → Prop) (r : Except Fault α) : Prop :=
  ∀ a, r = .ok a → P a

section

variable {α β : Type} {P : α → Prop} {Q : β → Prop}

theorem givesIn_ok {a : α} (h : P a) : GivesIn P (.ok a : Except Fault α) := by
  intro a' heq
  cases heq
  exact h

theorem givesIn_error (fault : Fault) : GivesIn P (.error fault : Except Fault α) :=
  fun _ h => nomatch h

theorem givesIn_true (r : Except Fault α) : GivesIn (fun _ => True) r :=
  fun _ _ => trivial

theorem givesIn_bind {r : Except Fault α} {f : α → Except Fault β} (h : GivesIn P r)
    (hf : ∀ a, P a → GivesIn Q (f a)) : GivesIn Q (r >>= f) := by
  cases r with
  | error fault => exact givesIn_error fault
  | ok a => exact hf a (h a rfl)

theorem givesIn_enter (fault : Fault) (calls room : Nat) {next : Nat → Except Fault α}
    (h : ∀ room, GivesIn P (next room)) : GivesIn P (Stack.enter fault calls room next) := by
  unfold Stack.enter
  split
  · exact h _
  · exact givesIn_error fault

end

/-! ### Paired results -/

/-- Two computations are paired if both have results, which are related, or both have faults, which
are related. -/
inductive Paired {α β : Type} (R : α → β → Prop) (F : Fault → Fault → Prop) :
    Except Fault α → Except Fault β → Prop
  | ok {a : α} {b : β} (h : R a b) : Paired R F (.ok a) (.ok b)
  | error {f f' : Fault} (h : F f f') : Paired R F (.error f) (.error f')

section

variable {α β γ δ : Type} {R : α → β → Prop} {S : γ → δ → Prop} {F : Fault → Fault → Prop}

theorem paired_mono_ok {R' : α → β → Prop} {r : Except Fault α} {s : Except Fault β}
    (h : Paired R F r s) (hr : ∀ a b, r = .ok a → R a b → R' a b) : Paired R' F r s := by
  cases h with
  | ok h => exact .ok (hr _ _ rfl h)
  | error h => exact .error h

theorem paired_mono {R' : α → β → Prop} {r : Except Fault α} {s : Except Fault β}
    (h : Paired R F r s) (hr : ∀ a b, R a b → R' a b) : Paired R' F r s :=
  paired_mono_ok h fun a b _ => hr a b

theorem paired_refl (hF : ∀ f, F f f) (r : Except Fault α) : Paired Eq F r r := by
  cases r with
  | error fault => exact .error (hF fault)
  | ok a => exact .ok rfl

theorem eq_of_paired {r s : Except Fault α} (h : Paired Eq Eq r s) : r = s := by
  cases h with
  | ok h => exact congrArg Except.ok h
  | error h => exact congrArg Except.error h

theorem paired_of_same_faults (hF : ∀ f, F f f) {r : Except Fault α} {s : Except Fault β}
    (h : Paired R Eq r s) : Paired R F r s := by
  cases h with
  | ok h => exact .ok h
  | error h => exact .error (h ▸ hF _)

theorem paired_trans {T : β → γ → Prop} {r : Except Fault α} {s : Except Fault β}
    {t : Except Fault γ} (h : Paired R F r s) (h' : Paired T Eq s t) :
    Paired (fun a c => ∃ b, R a b ∧ T b c) F r t := by
  cases h with
  | ok hab =>
    cases h' with
    | ok hbc => exact .ok ⟨_, hab, hbc⟩
  | error hf =>
    cases h' with
    | error heq => exact .error (heq ▸ hf)

/-- Continuations of paired computations, which may use what these have given. -/
theorem paired_bind_ok {r : Except Fault α} {s : Except Fault β} {f : α → Except Fault γ}
    {g : β → Except Fault δ} (h : Paired R F r s)
    (hf : ∀ a b, r = .ok a → s = .ok b → R a b → Paired S F (f a) (g b)) :
    Paired S F (r >>= f) (s >>= g) := by
  cases h with
  | ok h => exact hf _ _ rfl rfl h
  | error h => exact .error h

theorem paired_bind {r : Except Fault α} {s : Except Fault β} {f : α → Except Fault γ}
    {g : β → Except Fault δ} (h : Paired R F r s)
    (hf : ∀ a b, R a b → Paired S F (f a) (g b)) : Paired S F (r >>= f) (s >>= g) :=
  paired_bind_ok h fun a b _ _ => hf a b

theorem paired_bind_same (hF : ∀ f, F f f) (r : Except Fault α) {f : α → Except Fault γ}
    {g : α → Except Fault δ} (hf : ∀ a, Paired S F (f a) (g a)) :
    Paired S F (r >>= f) (r >>= g) := by
  cases r with
  | error fault => exact .error (hF fault)
  | ok a => exact hf a

/-! ### Pairs with a way out -/

/-- Two computations are paired unless the first one has a fault of a class; of the second one
nothing is said then. -/
def PairedUnless (E : Fault → Prop) (R : α → β → Prop) (F : Fault → Fault → Prop)
    (r : Except Fault α) (s : Except Fault β) : Prop :=
  (∃ fault, E fault ∧ r = .error fault) ∨ Paired R F r s

variable {E : Fault → Prop}

theorem Paired.unless {r : Except Fault α} {s : Except Fault β} (h : Paired R F r s) :
    PairedUnless E R F r s := .inr h

theorem paired_of_unless {r : Except Fault α} {s : Except Fault β} (h : PairedUnless E R F r s)
    (hr : ∀ fault, E fault → r ≠ .error fault) : Paired R F r s := by
  rcases h with ⟨fault, hE, rfl⟩ | h
  · exact absurd rfl (hr fault hE)
  · exact h

theorem unless_bind {r : Except Fault α} {s : Except Fault β} {f : α → Except Fault γ}
    {g : β → Except Fault δ} (h : PairedUnless E R F r s)
    (hf : ∀ a b, R a b → PairedUnless E S F (f a) (g b)) :
    PairedUnless E S F (r >>= f) (s >>= g) := by
  rcases h with ⟨fault, hE, rfl⟩ | h
  · exact .inl ⟨fault, hE, rfl⟩
  · cases h with
    | ok h => exact hf _ _ h
    | error h => exact .inr (.error h)

theorem unless_bind_same (hF : ∀ f, F f f) (r : Except Fault α) {f : α → Except Fault γ}
    {g : α → Except Fault δ} (hf : ∀ a, r = .ok a → PairedUnless E S F (f a) (g a)) :
    PairedUnless E S F (r >>= f) (r >>= g) := by
  cases r with
  | error fault => exact .inr (.error (hF fault))
  | ok a => exact hf a rfl

end

end ProseGrammar
