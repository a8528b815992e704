import ProseGrammar.Proofs.Results
import ProseGrammar.Proofs.Token.Pieces

/-!
# Tokens of scanned text

Every token of a scanned text has a value that its kind allows: an identifier has a name, a numeral
has digits with an optional fraction, an operator has its own symbol.
-/

namespace ProseGrammar

def TokenKind.allows (kind : TokenKind) (value : List Char) : Bool :=
  match kind with
  | string => true
  | number => Text.isPlainNumeral value
  | identifier => Text.isName value
  | kind => value == kind.symbol

/-- Whether the value of a token is one of its kind. -/
def Token.isSound (t : Token) : Bool :=
  t.kind.allows t.value.toList

/-! ### Lexemes -/

theorem allows_of_ofChar? (c : Char) (kind : TokenKind) (h : TokenKind.ofChar? c = some kind) :
    kind.allows [c] = true := by
  unfold TokenKind.ofChar? at h
  split at h <;> cases h <;> rfl

theorem allows_of_ofPair? (c d : Char) (kind : TokenKind) (h : TokenKind.ofPair? c d = some kind) :
    kind.allows [c, d] = true := by
  unfold TokenKind.ofPair? at h
  split at h <;> cases h <;> rfl

theorem allows_of_operator? (c : Char) (rest : List Char) (lexeme : Lexeme)
    (h : Lexeme.operator? c rest = some lexeme) : lexeme.kind.allows lexeme.value = true := by
  rw [Lexeme.operator?, Option.or_eq_some_iff] at h
  rcases h with hpair | ⟨-, hchar⟩
  · cases rest with
    | nil => cases hpair
    | cons d rest =>
      obtain ⟨kind, hkind, rfl⟩ := Option.map_eq_some_iff.mp hpair
      exact allows_of_ofPair? c d kind hkind
  · obtain ⟨kind, hkind, rfl⟩ := Option.map_eq_some_iff.mp hchar
    exact allows_of_ofChar? c kind hkind

theorem isPlainNumeral_of_fraction (c : Char) (rest : List Char) (hc : Decimal.isDigit c = true) :
    Text.isPlainNumeral (c :: (rest.takeWhile Decimal.isDigit ++
      Lexeme.fraction (rest.drop (rest.takeWhile Decimal.isDigit).length))) = true := by
  have htake : ∀ cs : List Char, ∀ d ∈ cs.takeWhile Decimal.isDigit, Decimal.isDigit d = true :=
    fun cs d hd => List.all_eq_true.mp List.all_takeWhile d hd
  rw [← List.cons_append]
  refine Piece.isPlainNumeral_append _ _ (List.cons_ne_nil _ _) ?_ ?_
  · intro d hd
    rcases List.mem_cons.mp hd with rfl | hd
    · exact hc
    · exact htake rest d hd
  · unfold Lexeme.fraction
    split
    next d after _ =>
      split
      next hd =>
        refine .inr ⟨_, rfl, List.cons_ne_nil _ _, ?_⟩
        intro e he
        rcases List.mem_cons.mp he with rfl | he
        · exact hd
        · exact htake after e he
      next => exact .inl rfl
    next => exact .inl rfl

theorem allows_of_read (c : Char) (rest : List Char) (lexeme : Lexeme)
    (h : Lexeme.read c rest = .ok lexeme) : lexeme.kind.allows lexeme.value = true := by
  unfold Lexeme.read at h
  split at h
  next hbreak =>
    subst hbreak
    cases h
    rfl
  split at h
  next found hfound =>
    cases h
    exact allows_of_operator? c rest _ hfound
  split at h
  · split at h <;> cases h
    rfl
  split at h
  next hdigit =>
    cases h
    exact isPlainNumeral_of_fraction c rest hdigit
  split at h
  next hstart =>
    cases h
    simp only [Lexeme.plain, TokenKind.allows, Text.isName, hstart, Bool.true_and]
    exact List.all_takeWhile
  next => cases h

/-! ### Token lists -/

theorem isSound_of_scanFrom (position : Position) (cs : List Char) (ts : List Token)
    (h : Token.scanFrom position cs = .ok ts) : ∀ t ∈ ts, t.isSound = true := by
  fun_induction Token.scanFrom position cs generalizing ts with
  | case1 position =>
    cases h
    intro t ht
    obtain rfl := List.mem_singleton.mp ht
    rfl
  | case2 position c rest hgap ih => exact ih ts h
  | case3 position rest hgap comment ih => exact ih ts h
  | case4 position c rest hgap hhash cause hread => cases h
  | case5 position c rest hgap hhash lexeme hread taken ih =>
    obtain ⟨others, hothers, h⟩ := (bind_ok_iff _ _ _).mp h
    cases h
    intro t ht
    rcases List.mem_cons.mp ht with rfl | ht
    · simpa [Token.isSound] using allows_of_read c rest lexeme hread
    · exact ih others hothers t ht

end ProseGrammar
