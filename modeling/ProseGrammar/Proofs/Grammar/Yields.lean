import ProseGrammar.Grammar.Read
import ProseGrammar.Proofs.Token.Sound

/-!
# What parsers yield

A parser that starts before sound tokens and succeeds leaves sound tokens, and what it has read
satisfies a predicate. The rules for single steps are stated here, one for each way to build a
parser; what a function of the reader yields follows its definition step by step.
-/

namespace ProseGrammar

variable {α β : Type}

namespace Cursor

/-- Whether all tokens still to be read are sound. -/
def IsSound (c : Cursor) : Prop :=
  ∀ t ∈ c.rest, t.isSound = true

theorem isSound_current (c : Cursor) (h : c.IsSound) :
    c.current.isSound = true ∧ c.current.kind = c.kind := by
  obtain ⟨index, rest⟩ := c
  cases rest with
  | nil => exact ⟨rfl, rfl⟩
  | cons t rest => exact ⟨h t List.mem_cons_self, rfl⟩

theorem isSound_drop (c : Cursor) (h : c.IsSound) (index n : Nat) :
    Cursor.IsSound ⟨index, c.rest.drop n⟩ := fun t ht => h t (List.mem_of_mem_drop ht)

theorem isSound_next (c : Cursor) (h : c.IsSound) : c.next.IsSound := by
  unfold next
  split
  · exact h
  · exact c.isSound_drop h _ 1

theorem isSound_skipBreaks (c : Cursor) (h : c.IsSound) : c.skipBreaks.IsSound :=
  c.isSound_drop h _ _

end Cursor

/-- If a parser succeeds at a cursor, it leaves sound tokens and its result is good. -/
def Yields (parser : Parser α) (c : Cursor) (good : α → Prop) : Prop :=
  ∀ a c', parser c = .ok (a, c') → c'.IsSound ∧ good a

theorem yields_pure (a : α) (c : Cursor) (good : α → Prop) (hc : c.IsSound) (h : good a) :
    Yields (pure a) c good := by
  intro b c' hb
  cases hb
  exact ⟨hc, h⟩

theorem yields_throw (fault : Fault) (c : Cursor) (good : α → Prop) :
    Yields (throw fault) c good := by
  intro a c' h
  cases h

theorem yields_fail (cause : SyntaxCause) (c : Cursor) (good : α → Prop) :
    Yields (Parser.fail cause) c good := by
  intro a c' h
  cases h

theorem yields_bind (parser : Parser α) (next : α → Parser β) (c : Cursor) (good : α → Prop)
    (fine : β → Prop) (h : Yields parser c good)
    (hn : ∀ a c', c'.IsSound → good a → Yields (next a) c' fine) :
    Yields (parser >>= next) c fine := by
  intro b c' hb
  obtain ⟨⟨a, c₁⟩, ha, hb⟩ := (bind_ok_iff _ _ _).mp hb
  obtain ⟨hc, hg⟩ := h a c₁ ha
  exact hn a c₁ hc hg b c' hb

theorem yields_get (next : Cursor → Parser β) (c : Cursor) (good : β → Prop)
    (h : Yields (next c) c good) : Yields (get >>= next) c good := h

theorem yields_set (next : Unit → Parser β) (c c' : Cursor) (good : β → Prop)
    (h : Yields (next ()) c' good) : Yields (set c' >>= next) c good := h

theorem yields_lift (x : Except Fault α) (next : α → Parser β) (c : Cursor) (good : β → Prop)
    (h : ∀ a, x = .ok a → Yields (next a) c good) :
    Yields ((liftM x : Parser α) >>= next) c good := by
  cases x with
  | error fault => exact yields_throw fault c good
  | ok a => exact h a rfl

theorem yields_advance (c : Cursor) (hc : c.IsSound) :
    Yields Parser.advance c fun t => t.isSound = true ∧ t.kind = c.kind := by
  intro t c' h
  cases h
  exact ⟨c.isSound_next hc, c.isSound_current hc⟩

theorem yields_next (next : Token → Parser β) (c : Cursor) (good : β → Prop)
    (h : Yields (next c.current) c.next good) : Yields (Parser.advance >>= next) c good := h

theorem yields_accept (kind : TokenKind) (c : Cursor) (hc : c.IsSound) :
    Yields (Parser.accept kind) c fun _ => True := by
  refine yields_get _ _ _ ?_
  split
  · exact yields_bind _ _ _ _ _ (yields_advance c hc) fun t c' hc' _ =>
      yields_pure _ _ _ hc' trivial
  · exact yields_pure _ _ _ hc trivial

theorem yields_expect (kind : TokenKind) (cause : SyntaxCause) (c : Cursor) (hc : c.IsSound) :
    Yields (Parser.expect kind cause) c fun t => t.isSound = true ∧ t.kind = kind := by
  refine yields_get _ _ _ ?_
  split
  next hk =>
    rw [← hk]
    exact yields_advance c hc
  next => exact yields_fail _ _ _

theorem yields_repeatFrom (goesOn : Cursor → Bool) (item : Parser α) (good : α → Prop)
    (h : ∀ c, c.IsSound → goesOn c = true → Yields item c good) (bound : List Token) (c : Cursor)
    (hc : c.IsSound) (as : List α) (c' : Cursor)
    (hr : Parser.repeatFrom goesOn item bound c = .ok (as, c')) :
    c'.IsSound ∧ ∀ a ∈ as, good a := by
  induction bound generalizing c as with
  | nil =>
    cases hr
    exact ⟨hc, fun a ha => nomatch ha⟩
  | cons t bound ih =>
    rcases Parser.repeatFrom_cases hr with
      ⟨-, rfl, rfl⟩ | ⟨a, c₁, others, hgoes, hitem, hothers, rfl⟩
    · exact ⟨hc, fun a ha => nomatch ha⟩
    · obtain ⟨hc₁, hgood⟩ := h c hc hgoes a c₁ hitem
      obtain ⟨hc₂, hall⟩ := ih c₁ hc₁ others hothers
      exact ⟨hc₂, List.forall_mem_cons.mpr ⟨hgood, hall⟩⟩

theorem yields_repeatWhile (goesOn : Cursor → Bool) (item : Parser α) (good : α → Prop) (c : Cursor)
    (hc : c.IsSound) (h : ∀ c, c.IsSound → goesOn c = true → Yields item c good) :
    Yields (Parser.repeatWhile goesOn item) c fun as => ∀ a ∈ as, good a := fun as c' hr =>
  yields_repeatFrom goesOn item good h c.rest c hc as c' hr

end ProseGrammar
