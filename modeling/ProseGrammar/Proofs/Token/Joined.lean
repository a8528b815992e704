import ProseGrammar.Proofs.Token.Splitting

/-!
# Splitting joined texts

A token, a string in quotes or a comment of a text ends with the text or before, so a line break and
another text behind it change nothing: the joined text splits into the tokens of the one text, a line
break, and the tokens of the other text, only lower.
-/

namespace ProseGrammar

/-! ### Lower places -/

def Position.lower (lines : Nat) (p : Position) : Position :=
  ⟨p.line + lines, p.column⟩

def Token.lower (lines : Nat) (t : Token) : Token :=
  ⟨t.kind, t.value, t.position.lower lines⟩

theorem Position.step_lower (lines : Nat) (p : Position) (c : Char) :
    (p.lower lines).step c = (p.step c).lower lines := by
  unfold Position.step
  split
  · simp only [Position.lower, Position.mk.injEq, and_true]
    omega
  · rfl

theorem Position.after_lower (lines : Nat) (p : Position) (cs : List Char) :
    (p.lower lines).after cs = (p.after cs).lower lines := by
  induction cs generalizing p with
  | nil => rfl
  | cons c cs ih =>
    have hstep : (p.lower lines).after (c :: cs) = ((p.lower lines).step c).after cs := rfl
    rw [hstep, Position.step_lower, ih]
    rfl

theorem Token.scanFrom_lower (lines : Nat) (p : Position) (cs : List Char) (ts : List Token)
    (h : Token.scanFrom p cs = .ok ts) :
    Token.scanFrom (p.lower lines) cs = .ok (ts.map (Token.lower lines)) := by
  fun_induction Token.scanFrom p cs generalizing ts with
  | case1 p =>
    cases h
    rw [Token.scanFrom]
    rfl
  | case2 p c rest hgap ih =>
    rw [Piece.scanFrom_gap _ c rest hgap, Position.step_lower]
    exact ih ts h
  | case3 p rest comment hgap ih =>
    rw [Token.scanFrom, if_neg hgap, if_pos rfl]
    dsimp only
    rw [Position.after_lower]
    exact ih ts h
  | case4 p c rest hgap hhash cause hread => cases h
  | case5 p c rest hgap hhash lexeme hread taken ih =>
    obtain ⟨others, hothers, h⟩ := (bind_ok_iff _ _ _).mp h
    cases h
    rw [Token.scanFrom, if_neg hgap, if_neg hhash, hread]
    dsimp only
    rw [Position.after_lower, ih others hothers]
    rfl

/-! ### Joined texts -/

theorem scanFrom_break (p : Position) (tail : List Char) :
    Token.scanFrom p ('\n' :: tail) =
      (⟨.newline, "\n", p⟩ :: ·) <$> Token.scanFrom ⟨p.line + 1, 1⟩ tail :=
  Piece.scanFrom_lexeme p '\n' [] tail (Lexeme.plain .newline '\n' []) (by decide) (by decide) rfl rfl

theorem kind_of_read (c : Char) (rest : List Char) (lexeme : Lexeme)
    (h : Lexeme.read c rest = .ok lexeme) : lexeme.kind ≠ .endOfText := by
  have hspelt := speltAs_of_read c rest lexeme ⟨1, 1⟩ h
  unfold Token.SpeltAs at hspelt
  split at hspelt
  next hs => exact fun hend => absurd (hs.symm.trans hend) nofun
  next => exact hspelt.1

/-- A text in front of a line break and another text: its tokens end once, and the line break stands
in place of their end. -/
theorem scanFrom_joined (p : Position) (cs tail : List Char) (ts : List Token)
    (h : Token.scanFrom p cs = .ok ts) :
    ∃ body e, ts = body ++ [e] ∧ e.kind = .endOfText ∧ (∀ t ∈ body, t.kind ≠ .endOfText) ∧
      Token.scanFrom p (cs ++ '\n' :: tail) = (body ++ ⟨.newline, "\n", e.position⟩ :: ·) <$>
        Token.scanFrom ⟨e.position.line + 1, 1⟩ tail := by
  fun_induction Token.scanFrom p cs generalizing ts with
  | case1 p =>
    cases h
    exact ⟨[], _, rfl, rfl, fun _ h => absurd h List.not_mem_nil, scanFrom_break p tail⟩
  | case2 p c rest hgap ih =>
    obtain ⟨body, e, hts, hend, hbody, hjoined⟩ := ih ts h
    refine ⟨body, e, hts, hend, hbody, ?_⟩
    rw [List.cons_append, Piece.scanFrom_gap p c _ hgap]
    exact hjoined
  | case3 p rest comment hgap ih =>
    obtain ⟨body, e, hts, hend, hbody, hjoined⟩ := ih ts h
    refine ⟨body, e, hts, hend, hbody, ?_⟩
    obtain ⟨after, hrest, hdrop, hline, hafter⟩ := exists_comment rest
    -- a comment that goes up to the end of the text goes up to the line break
    have hbreak : ∀ c ∈ (after ++ '\n' :: tail).head?, c = '\n' := by
      cases after with
      | nil => exact fun c hc => (Option.some.inj hc).symm
      | cons => exact hafter
    rw [hdrop] at hjoined
    rw [hrest, List.cons_append, List.append_assoc, scanFrom_comment p _ _ hline hbreak]
    exact hjoined
  | case4 p c rest hgap hhash cause hread => cases h
  | case5 p c rest hgap hhash lexeme hread taken ih =>
    obtain ⟨others, hothers, h⟩ := (bind_ok_iff _ _ _).mp h
    cases h
    obtain ⟨body, e, hts, hend, hbody, hjoined⟩ := ih others hothers
    obtain ⟨word, after, rfl, hmore⟩ := word_of_read c rest lexeme hread
    -- the line break stops what the end of the text stops
    have halike := stopsAlike_cut '\n' (by decide) after [] tail
    rw [List.append_nil] at halike
    have hbroken := read_of_stopsAlike c word after _ lexeme halike hmore hread
    simp only [taken, hmore, List.take_left, List.drop_left] at hjoined
    refine ⟨_ :: body, e, congrArg _ hts, hend, ?_, ?_⟩
    · exact List.forall_mem_cons.mpr ⟨kind_of_read c _ lexeme hread, hbody⟩
    · rw [List.cons_append, List.append_assoc, Piece.scanFrom_lexeme p c word _ lexeme
        (Bool.eq_false_iff.mpr hgap) hhash hmore hbroken, hjoined]
      cases Token.scanFrom ⟨e.position.line + 1, 1⟩ tail <;> rfl

end ProseGrammar
