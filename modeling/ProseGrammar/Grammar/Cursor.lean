import ProseGrammar.Token

/-!
# Reading a list of tokens

A cursor stands at a token of a list and knows how many tokens it has passed. A parser moves it
forward and returns what it has read, or fails. Repetition goes on while the next token allows it,
but not more often than there are tokens.
-/

namespace ProseGrammar

/-- The tokens still to be read, and the number of those before them. -/
structure Cursor where
  index : Nat
  rest : List Token
  deriving DecidableEq

namespace Cursor

/-! ### Looking ahead -/

/-- The token at which the cursor stands; past the end of the list it is the end of the text. -/
def current (c : Cursor) : Token :=
  c.rest.headD ⟨.endOfText, "", ⟨1, 1⟩⟩

def kindAt (c : Cursor) (offset : Nat) : TokenKind :=
  match c.rest[offset]? with
  | some t => t.kind
  | none => .endOfText

def kind (c : Cursor) : TokenKind :=
  c.kindAt 0

/-- The cursor after the current token; the end of the text is never passed. -/
def next (c : Cursor) : Cursor :=
  if c.kind = .endOfText then c else ⟨c.index + 1, c.rest.drop 1⟩

def skipBreaks (c : Cursor) : Cursor :=
  let breaks := c.rest.takeWhile fun t => t.kind = .newline
  ⟨c.index + breaks.length, c.rest.drop breaks.length⟩

def atRuleStart (c : Cursor) : Bool :=
  c.kindAt 0 = .dollar && c.kindAt 1 = .identifier && c.kindAt 2 = .define

end Cursor

/-! ### Parsers -/

abbrev Parser (α : Type) : Type :=
  StateT Cursor (Except Fault) α

namespace Parser

variable {α : Type}

def fail (cause : SyntaxCause) : Parser α := do
  throw (.syntactic cause (← get).current.position)

def advance : Parser Token := do
  let c ← get
  set c.next
  return c.current

def accept (kind : TokenKind) : Parser Bool := do
  if (← get).kind = kind then
    let _ ← advance
    return true
  else return false

def expect (kind : TokenKind) (cause : SyntaxCause) : Parser Token := do
  if (← get).kind = kind then advance else fail cause

/-- The items read from a cursor on, as long as the next token allows another one, and at most as
many as `bound` has tokens. -/
def repeatFrom (goesOn : Cursor → Bool) (item : Parser α) :
    (bound : List Token) → Cursor → Except Fault (List α × Cursor)
  | [], c => .ok ([], c)
  | _ :: bound, c =>
    if goesOn c then
      match item c with
      | .error fault => .error fault
      | .ok (a, c) =>
        match repeatFrom goesOn item bound c with
        | .error fault => .error fault
        | .ok (as, c) => .ok (a :: as, c)
    else .ok ([], c)

section

variable {goesOn : Cursor → Bool} {item : Parser α}

theorem repeatFrom_stop {c : Cursor} (h : goesOn c = false) (bound : List Token) :
    repeatFrom goesOn item bound c = .ok ([], c) := by
  cases bound with
  | nil => rfl
  | cons t bound => rw [repeatFrom, if_neg (by rw [h]; nofun)]

theorem repeatFrom_next {c d e : Cursor} {bound : List Token} {a : α} {as : List α}
    (hgoes : goesOn c = true) (hitem : item c = .ok (a, d))
    (hothers : repeatFrom goesOn item bound d = .ok (as, e)) (t : Token) :
    repeatFrom goesOn item (t :: bound) c = .ok (a :: as, e) := by
  rw [repeatFrom, if_pos hgoes, hitem]
  dsimp only
  rw [hothers]

/-- What is repeated stops before the first item, or it has read one and goes on behind it. -/
theorem repeatFrom_cases {c e : Cursor} {t : Token} {bound : List Token} {as : List α}
    (h : repeatFrom goesOn item (t :: bound) c = .ok (as, e)) :
    goesOn c = false ∧ as = [] ∧ e = c ∨
      ∃ a d others, goesOn c = true ∧ item c = .ok (a, d) ∧
        repeatFrom goesOn item bound d = .ok (others, e) ∧ as = a :: others := by
  rw [repeatFrom] at h
  split at h
  next hgoes =>
    split at h
    next => cases h
    next a d hitem =>
      split at h
      next => cases h
      next others e' hothers =>
        cases h
        exact .inr ⟨a, d, others, hgoes, hitem, hothers, rfl⟩
  next hgoes =>
    cases h
    exact .inl ⟨Bool.eq_false_iff.mpr hgoes, rfl, rfl⟩

end

/-- Reads items as long as the next token allows another one. Every item takes a token, so there are
at most as many items as tokens. -/
def repeatWhile (goesOn : Cursor → Bool) (item : Parser α) : Parser (List α) :=
  fun c => repeatFrom goesOn item c.rest c

end Parser

end ProseGrammar
