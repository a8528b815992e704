import ProseGrammar.Proofs.Token.Sound

/-!
# How text splits into tokens

Every text is blanks, comments and the spellings of its tokens in a row, with nothing left out and
nothing added; or it is so up to a character at which no token starts, or up to a quote that is
never closed. Each token stands where the line feeds and the characters before it put it, and none
could be longer: together with what follows its spelling starts no other token.
-/

namespace ProseGrammar

/-! ### Places -/

/-- The place behind a text: its line is counted by the line feeds of the text, its column by the
characters after the last of them. -/
def Position.behind (before : List Char) : Position :=
  ⟨before.count '\n' + 1, (before.reverse.takeWhile (· ≠ '\n')).length + 1⟩

theorem Position.step_behind (before : List Char) (c : Char) :
    (Position.behind before).step c = Position.behind (before ++ [c]) := by
  by_cases hc : c = '\n'
  · subst hc
    simp [Position.behind, Position.step]
  · simp [Position.behind, Position.step, hc]

theorem Position.after_behind (before cs : List Char) :
    (Position.behind before).after cs = Position.behind (before ++ cs) := by
  induction cs generalizing before with
  | nil => rw [List.append_nil]; rfl
  | cons c cs ih =>
    have hstep : (Position.behind before).after (c :: cs) =
        ((Position.behind before).step c).after cs := rfl
    rw [hstep, step_behind, ih, List.append_assoc]
    rfl

/-! ### Spellings -/

/-- Whether a text between two quotes stands for a value, in which escapes are resolved. -/
inductive Lexeme.Decodes (quote : Char) : (body value : List Char) → Prop
  | nil : Decodes quote [] []
  | plain {c : Char} {body value : List Char} (hquote : c ≠ quote) (hescape : c ≠ '\\')
      (h : Decodes quote body value) : Decodes quote (c :: body) (c :: value)
  | escape {e : Char} {body value : List Char} (h : Decodes quote body value) :
      Decodes quote ('\\' :: e :: body) (Lexeme.unescape e :: value)

/-- Whether a text spells a token: a string is spelt as a quoted text that stands for its value, any
other token as its value, which is one of its kind. -/
def Token.SpeltAs (t : Token) (lexeme : List Char) : Prop :=
  if t.kind = .string then
    ∃ quote body, (quote = '"' ∨ quote = '\'') ∧ lexeme = quote :: body ++ [quote] ∧
      Lexeme.Decodes quote body t.value.toList
  else t.kind ≠ .endOfText ∧ lexeme = t.value.toList ∧ t.kind.allows lexeme = true

/-- Whether no characters of what follows a spelling extend it to the spelling of another token: not
a name or a numeral by more letters or digits, and no operator to one of two characters. -/
def Lexeme.IsLongest (lexeme rest : List Char) : Prop :=
  ∀ more, more ≠ [] → more <+: rest → ∀ kind : TokenKind, kind ≠ .string →
    kind.allows (lexeme ++ more) = false

/-- Whether a text, which stands behind the text `before` and in front of the text `rest`, is blanks,
comments up to the ends of lines, and the spellings of tokens in their places. -/
inductive Token.Splits : (before : List Char) → List Token → (text rest : List Char) → Prop
  | nil {before rest : List Char} : Splits before [] [] rest
  | blank {before text rest : List Char} {ts : List Token} {c : Char}
      (hc : Text.isGap c = true) (h : Splits (before ++ [c]) ts text rest) :
      Splits before ts (c :: text) rest
  | comment {before body text rest : List Char} {ts : List Token}
      (hbody : ∀ c ∈ body, c ≠ '\n') (hend : ∀ c ∈ (text ++ rest).head?, c = '\n')
      (h : Splits (before ++ '#' :: body) ts text rest) :
      Splits before ts ('#' :: body ++ text) rest
  | token {before lexeme text rest : List Char} {t : Token} {ts : List Token}
      (hspelt : t.SpeltAs lexeme) (hlongest : Lexeme.IsLongest lexeme (text ++ rest))
      (hposition : t.position = Position.behind before)
      (h : Splits (before ++ lexeme) ts text rest) : Splits before (t :: ts) (lexeme ++ text) rest

/-- Why no token starts at a character: it is a quote without a matching one behind it, or it is
neither blank nor starts a comment nor is a quote, and no token's spelling starts with it. -/
def LexicalCause.Stops (cause : LexicalCause) (c : Char) (rest : List Char) : Prop :=
  match cause with
  | .unterminatedString => (c = '"' ∨ c = '\'') ∧
    ∀ body value tail, rest = body ++ c :: tail → ¬Lexeme.Decodes c body value
  | .unexpectedCharacter d => d = c ∧ Text.isGap c = false ∧ c ≠ '#' ∧ c ≠ '"' ∧ c ≠ '\'' ∧
    ∀ lexeme, lexeme ≠ [] → lexeme <+: c :: rest → ∀ kind : TokenKind, kind ≠ .string →
      kind.allows lexeme = false

/-! ### Quoted texts -/

theorem decodes_of_quotedBody? (quote : Char) (cs value : List Char) (n : Nat)
    (h : Lexeme.quotedBody? quote cs = some (value, n)) :
    ∃ body rest, cs = body ++ quote :: rest ∧ n = body.length + 1 ∧
      Lexeme.Decodes quote body value := by
  fun_induction Lexeme.quotedBody? quote cs generalizing value n with
  | case1 => cases h
  | case2 rest =>
    cases h
    exact ⟨[], rest, rfl, rfl, .nil⟩
  | case3 => cases h
  | case4 e rest hquote ih =>
    obtain ⟨⟨value, n⟩, hinner, h⟩ := Option.map_eq_some_iff.mp h
    cases h
    obtain ⟨body, after, rfl, rfl, hbody⟩ := ih value n hinner
    exact ⟨'\\' :: e :: body, after, rfl, rfl, .escape hbody⟩
  | case5 c rest hquote hescape ih =>
    obtain ⟨⟨value, n⟩, hinner, h⟩ := Option.map_eq_some_iff.mp h
    cases h
    obtain ⟨body, after, rfl, rfl, hbody⟩ := ih value n hinner
    exact ⟨c :: body, after, rfl, rfl, .plain hquote hescape hbody⟩

theorem quotedBody?_of_decodes (quote : Char) (hq : quote ≠ '\\') (body value rest : List Char)
    (h : Lexeme.Decodes quote body value) :
    Lexeme.quotedBody? quote (body ++ quote :: rest) = some (value, body.length + 1) := by
  induction h with
  | nil =>
    rw [List.nil_append, Lexeme.quotedBody?.eq_def]
    simp
  | plain hquote hescape h ih =>
    rw [List.cons_append, Lexeme.quotedBody?.eq_def]
    simp only [if_neg hquote, if_neg hescape, ih, Option.map_some, List.length_cons]
  | escape h ih =>
    rw [List.cons_append, List.cons_append, Lexeme.quotedBody?.eq_def]
    simp only [if_neg (Ne.symm hq), if_true, ih, Option.map_some, List.length_cons]

/-! ### First characters -/

theorem ofPair?_of_symbol (kind : TokenKind) (c d : Char) (more : List Char)
    (h : kind.symbol = c :: d :: more) : more = [] ∧ TokenKind.ofPair? c d = some kind := by
  cases kind <;> cases h <;> exact ⟨rfl, rfl⟩

theorem start_of_symbol (kind : TokenKind) (c : Char) (more : List Char)
    (h : kind.symbol = c :: more) : c = '\n' ∨ (TokenKind.ofChar? c).isSome = true := by
  cases kind <;> cases h <;> decide

theorem symbol_of_allows (kind : TokenKind) (value : List Char) (h : kind.allows value = true)
    (hs : kind ≠ .string) (hn : kind ≠ .number) (hi : kind ≠ .identifier) :
    kind.symbol = value := by
  cases kind <;> first
    | exact absurd rfl hs
    | exact absurd rfl hn
    | exact absurd rfl hi
    | exact (beq_iff_eq.mp h).symm

/-- What the first character says about the kind of a token that is no string. -/
theorem start_of_allows (kind : TokenKind) (c : Char) (more : List Char) (hs : kind ≠ .string)
    (h : kind.allows (c :: more) = true) :
    (kind = .number ∧ Decimal.isDigit c = true) ∨ (kind = .identifier ∧ Text.isNameStart c = true) ∨
      (kind.symbol = c :: more ∧ (c = '\n' ∨ (TokenKind.ofChar? c).isSome = true)) := by
  by_cases hn : kind = .number
  · subst hn
    obtain ⟨d, ds, hds, hcs⟩ := Piece.isPlainNumeral_cases _ h
    have hc : c = d := by
      rcases hcs with hcs | ⟨e, es, _, hcs⟩ <;> exact (List.cons.inj hcs).1
    exact .inl ⟨rfl, hc ▸ hds d List.mem_cons_self⟩
  by_cases hi : kind = .identifier
  · subst hi
    have hname : Text.isName (c :: more) = true := h
    simp only [Text.isName, Bool.and_eq_true] at hname
    exact .inr (.inl ⟨rfl, hname.1⟩)
  have hsymbol := symbol_of_allows kind _ h hs hn hi
  exact .inr (.inr ⟨hsymbol, start_of_symbol kind c more hsymbol⟩)

theorem ofChar?_eq_none (c : Char)
    (h : Text.isNameStart c = true ∨ Decimal.isDigit c = true ∨ c = '"' ∨ c = '\'' ∨ c = '\n') :
    TokenKind.ofChar? c = none := by
  unfold TokenKind.ofChar?
  split <;> first | rfl | exact absurd h (by decide)

theorem ofPair?_eq_none_of_ofChar? (c d : Char) (h : TokenKind.ofChar? c = none) :
    TokenKind.ofPair? c d = none := by
  unfold TokenKind.ofPair?
  split <;> first | rfl | cases h

theorem operator?_eq_none_of_ofChar? (c : Char) (rest : List Char)
    (h : TokenKind.ofChar? c = none) : Lexeme.operator? c rest = none := by
  cases rest with
  | nil => simp [Lexeme.operator?, Lexeme.pair?, h]
  | cons d rest => simp [Lexeme.operator?, Lexeme.pair?, h, ofPair?_eq_none_of_ofChar? c d h]

/-! ### Lexemes -/

/-- The lexemes that are read at a character, class by class. -/
inductive Lexeme.Class (c : Char) (rest : List Char) : Lexeme → Prop
  | lineBreak (hc : c = '\n') : Class c rest (Lexeme.plain .newline c [])
  | pair {kind : TokenKind} {d : Char} {tail : List Char} (hrest : rest = d :: tail)
      (hpair : TokenKind.ofPair? c d = some kind) : Class c rest (Lexeme.plain kind c [d])
  | single {kind : TokenKind} (hkind : TokenKind.ofChar? c = some kind)
      (hrest : ∀ d ∈ rest.head?, TokenKind.ofPair? c d = none) :
      Class c rest (Lexeme.plain kind c [])
  | quoted {body value after : List Char} (hc : c = '"' ∨ c = '\'')
      (hrest : rest = body ++ c :: after) (hbody : Lexeme.Decodes c body value) :
      Class c rest ⟨.string, value, body.length + 1⟩
  | whole {digits after : List Char} (hc : Decimal.isDigit c = true)
      (hrest : rest = digits ++ after) (hdigits : ∀ d ∈ digits, Decimal.isDigit d = true)
      (hafter : ∀ d ∈ after.head?, Decimal.isDigit d = false)
      (hpoint : ∀ d tail, after = '.' :: d :: tail → Decimal.isDigit d = false) :
      Class c rest (Lexeme.plain .number c digits)
  | fraction {digits ds after : List Char} {d : Char} (hc : Decimal.isDigit c = true)
      (hrest : rest = (digits ++ '.' :: d :: ds) ++ after)
      (hdigits : ∀ d ∈ digits, Decimal.isDigit d = true)
      (hds : ∀ e ∈ d :: ds, Decimal.isDigit e = true)
      (hafter : ∀ d ∈ after.head?, Decimal.isDigit d = false) :
      Class c rest (Lexeme.plain .number c (digits ++ '.' :: d :: ds))
  | name {more after : List Char} (hc : Text.isNameStart c = true)
      (hrest : rest = more ++ after) (hmore : ∀ d ∈ more, Text.isNameChar d = true)
      (hafter : ∀ d ∈ after.head?, Text.isNameChar d = false) :
      Class c rest (Lexeme.plain .identifier c more)

/-- A text up to where a class of characters ends, and what follows. -/
theorem exists_takeWhile (p : Char → Bool) (cs : List Char) :
    ∃ after, cs = cs.takeWhile p ++ after ∧ cs.drop (cs.takeWhile p).length = after ∧
      (∀ d ∈ cs.takeWhile p, p d = true) ∧ ∀ d ∈ after.head?, p d = false := by
  induction cs with
  | nil => exact ⟨[], rfl, rfl, nofun, nofun⟩
  | cons c cs ih =>
    cases hc : p c with
    | false =>
      rw [List.takeWhile_cons_of_neg (by simp [hc])]
      refine ⟨c :: cs, rfl, rfl, nofun, fun d hd => ?_⟩
      obtain rfl : c = d := Option.some.inj hd
      exact hc
    | true =>
      obtain ⟨after, hcs, hdrop, htake, hafter⟩ := ih
      rw [List.takeWhile_cons_of_pos hc]
      refine ⟨after, congrArg (c :: ·) hcs, hdrop, fun d hd => ?_, hafter⟩
      rcases List.mem_cons.mp hd with rfl | hd
      · exact hc
      · exact htake d hd

theorem exists_comment (cs : List Char) :
    ∃ after, cs = cs.takeWhile (· ≠ '\n') ++ after ∧
      cs.drop (cs.takeWhile (· ≠ '\n')).length = after ∧
      (∀ c ∈ cs.takeWhile (· ≠ '\n'), c ≠ '\n') ∧ ∀ c ∈ after.head?, c = '\n' := by
  obtain ⟨after, hcs, hdrop, hbody, hafter⟩ := exists_takeWhile (· ≠ '\n') cs
  exact ⟨after, hcs, hdrop, fun c hc => by simpa using hbody c hc,
    fun c hc => by simpa using hafter c hc⟩

/-- A comment is passed over up to the end of its line. -/
theorem scanFrom_comment (p : Position) (body rest : List Char) (hbody : ∀ c ∈ body, c ≠ '\n')
    (hrest : ∀ c ∈ rest.head?, c = '\n') :
    Token.scanFrom p ('#' :: (body ++ rest)) = Token.scanFrom (p.after ('#' :: body)) rest := by
  have hline : (body ++ rest).takeWhile (· ≠ '\n') = body :=
    Piece.takeWhile_append_stop _ body rest (fun c hc => by simpa using hbody c hc)
      fun c hc => by simpa using hrest c hc
  rw [Token.scanFrom, if_neg (by decide), if_pos rfl]
  dsimp only
  rw [hline, List.drop_left]

theorem class_of_digits (c : Char) (rest : List Char) (hc : Decimal.isDigit c = true) :
    Lexeme.Class c rest (Lexeme.plain .number c (rest.takeWhile Decimal.isDigit ++
      Lexeme.fraction (rest.drop (rest.takeWhile Decimal.isDigit).length))) := by
  obtain ⟨after, hrest, hdrop, hdigits, hafter⟩ := exists_takeWhile Decimal.isDigit rest
  rw [hdrop]
  unfold Lexeme.fraction
  split
  next d tail =>
    split
    next hd =>
      obtain ⟨last, htail, -, hds, hlast⟩ := exists_takeWhile Decimal.isDigit tail
      refine .fraction hc ?_ hdigits ?_ hlast
      · rw [List.append_assoc, List.cons_append, List.cons_append, ← htail, ← hrest]
      · exact fun e he => (List.mem_cons.mp he).elim (fun h => h ▸ hd) (hds e)
    next hd =>
      rw [List.append_nil]
      refine .whole hc hrest hdigits hafter fun e _ h => ?_
      cases h
      exact Bool.eq_false_iff.mpr hd
  next hnone =>
    rw [List.append_nil]
    exact .whole hc hrest hdigits hafter fun d tail h => absurd h (hnone d tail)

theorem class_of_read (c : Char) (rest : List Char) (lexeme : Lexeme)
    (h : Lexeme.read c rest = .ok lexeme) : Lexeme.Class c rest lexeme := by
  unfold Lexeme.read at h
  split at h
  next hbreak =>
    cases h
    exact .lineBreak hbreak
  split at h
  next found hfound =>
    cases h
    rw [Lexeme.operator?, Option.or_eq_some_iff] at hfound
    rcases hfound with hpair | ⟨hnone, hsingle⟩
    · cases rest with
      | nil => cases hpair
      | cons d tail =>
        obtain ⟨kind, hkind, rfl⟩ := Option.map_eq_some_iff.mp hpair
        exact .pair rfl hkind
    · obtain ⟨kind, hkind, rfl⟩ := Option.map_eq_some_iff.mp hsingle
      refine .single hkind fun d hd => ?_
      cases rest with
      | nil => cases hd
      | cons e tail =>
        obtain rfl : e = d := Option.some.inj hd
        exact Option.map_eq_none_iff.mp hnone
  split at h
  next hquote =>
    split at h
    next value more hbody =>
      cases h
      obtain ⟨body, after, hrest, rfl, hdecodes⟩ := decodes_of_quotedBody? c rest value more hbody
      exact .quoted (by simpa using hquote) hrest hdecodes
    next => cases h
  split at h
  next hdigit =>
    cases h
    exact class_of_digits c rest hdigit
  split at h
  next hstart =>
    cases h
    obtain ⟨after, hrest, -, hmore, hafter⟩ := exists_takeWhile Text.isNameChar rest
    exact .name hstart hrest hmore hafter
  next => cases h

theorem fraction_of_stop (after : List Char)
    (hpoint : ∀ d tail, after = '.' :: d :: tail → Decimal.isDigit d = false) :
    Lexeme.fraction after = [] := by
  unfold Lexeme.fraction
  split
  next d tail => rw [hpoint d tail rfl]; rfl
  next => rfl

theorem fraction_of_digits (d : Char) (ds after : List Char)
    (hds : ∀ e ∈ d :: ds, Decimal.isDigit e = true)
    (hafter : ∀ e ∈ after.head?, Decimal.isDigit e = false) :
    Lexeme.fraction ('.' :: d :: ds ++ after) = '.' :: d :: ds := by
  obtain ⟨hd, hds⟩ := List.forall_mem_cons.mp hds
  simp only [List.cons_append, Lexeme.fraction, hd, if_true,
    Piece.takeWhile_append_stop _ ds after hds hafter]

theorem read_of_class (c : Char) (rest : List Char) (lexeme : Lexeme)
    (h : Lexeme.Class c rest lexeme) : Lexeme.read c rest = .ok lexeme := by
  cases h with
  | lineBreak hc => rw [Lexeme.read, if_pos hc]
  | pair hrest hpair =>
    subst hrest
    have hc : c ≠ '\n' := by
      rintro rfl
      cases hpair
    simp only [Lexeme.read, if_neg hc, Lexeme.operator?, Lexeme.pair?, hpair, Option.map_some,
      Option.some_or]
  | single hkind hrest =>
    have hc : c ≠ '\n' := by
      rintro rfl
      cases hkind
    have hpair : Lexeme.pair? c rest = none := by
      cases rest with
      | nil => rfl
      | cons d tail => rw [Lexeme.pair?, hrest d rfl, Option.map_none]
    simp only [Lexeme.read, if_neg hc, Lexeme.operator?, hpair, hkind, Option.map_some,
      Option.none_or]
  | @quoted body value after hc hrest hbody =>
    have hbreak : c ≠ '\n' := by
      rcases hc with rfl | rfl <;> decide
    have hback : c ≠ '\\' := by
      rcases hc with rfl | rfl <;> decide
    have hquote : (c = '"' || c = '\'') = true := by simpa using hc
    have hchar := ofChar?_eq_none c (.inr (.inr (hc.imp_right .inl)))
    have hvalue := quotedBody?_of_decodes c hback body value after hbody
    rw [← hrest] at hvalue
    simp only [Lexeme.read, if_neg hbreak, operator?_eq_none_of_ofChar? c rest hchar, hquote, if_true,
      hvalue]
  | whole hc hrest hdigits hafter hpoint =>
    rw [Piece.read_of_isDigit c rest hc, hrest, Piece.takeWhile_append_stop _ _ _ hdigits hafter,
      List.drop_left, fraction_of_stop _ hpoint, List.append_nil]
  | @fraction digits ds after d hc hrest hdigits hds hafter =>
    have hpoint : ∀ e ∈ ('.' :: d :: ds ++ after).head?, Decimal.isDigit e = false := by
      intro e he
      obtain rfl : '.' = e := Option.some.inj he
      rfl
    rw [Piece.read_of_isDigit c rest hc, hrest, List.append_assoc,
      Piece.takeWhile_append_stop _ _ _ hdigits hpoint, List.drop_left,
      fraction_of_digits _ _ _ hds hafter]
  | name hc hrest hmore hafter =>
    rw [Piece.read_of_isNameStart c rest hc, hrest, Piece.takeWhile_append_stop _ _ _ hmore hafter]

/-! ### What stops a lexeme -/

/-- Whether a character goes on with no name, numeral or operator. -/
def IsApart (c : Char) : Prop :=
  Text.isNameChar c = false ∧ c ≠ '.' ∧ c ≠ '=' ∧ c ≠ ':'

instance (c : Char) : Decidable (IsApart c) :=
  inferInstanceAs (Decidable (_ ∧ _))

namespace IsApart

variable {c : Char}

theorem isDigit (h : IsApart c) : Decimal.isDigit c = false :=
  (Bool.or_eq_false_iff.mp h.1).2

theorem ofPair? (h : IsApart c) (d : Char) : TokenKind.ofPair? d c = none :=
  Piece.ofPair?_eq_none d c h.2.2.1 h.2.2.2

end IsApart

/-- Whether a text stops every lexeme that another text stops: its first character, and the one
behind a point, are those of the other text or apart. -/
structure StopsAlike (after after' : List Char) : Prop where
  first : ∀ d ∈ after'.head?, d ∈ after.head? ∨ IsApart d
  behindPoint : ∀ d tail, after' = '.' :: d :: tail → IsApart d ∨ ∃ more, after = '.' :: d :: more

theorem StopsAlike.head {after after' : List Char} (h : StopsAlike after after') {P : Char → Prop}
    (hapart : ∀ d, IsApart d → P d) (hafter : ∀ d ∈ after.head?, P d) :
    ∀ d ∈ after'.head?, P d :=
  fun d hd => (h.first d hd).elim (hafter d) (hapart d)

theorem stopsAlike_cut (d : Char) (hd : IsApart d) (shared tail tail' : List Char) :
    StopsAlike (shared ++ tail) (shared ++ d :: tail') where
  first := by
    cases shared with
    | nil =>
      rintro _ ⟨⟩
      exact .inr hd
    | cons c shared => exact fun e he => .inl he
  behindPoint := by
    intro e more heq
    cases shared with
    | nil => exact absurd (List.cons.inj heq).1 hd.2.1
    | cons c shared =>
      cases shared with
      | nil =>
        cases heq
        exact .inl hd
      | cons c' shared =>
        cases heq
        exact .inr ⟨shared ++ tail, rfl⟩

theorem word_of_class (c : Char) (rest : List Char) (lexeme : Lexeme)
    (h : Lexeme.Class c rest lexeme) :
    ∃ word after, rest = word ++ after ∧ lexeme.more = word.length := by
  cases h with
  | lineBreak | single => exact ⟨[], rest, rfl, rfl⟩
  | @pair _ d tail hrest => exact ⟨[d], tail, hrest, rfl⟩
  | @quoted body _ after _ hrest =>
    exact ⟨body ++ [c], after, by rw [hrest, List.append_cons], by simp⟩
  | whole _ hrest | fraction _ hrest | name _ hrest => exact ⟨_, _, hrest, rfl⟩

theorem class_of_stopsAlike (c : Char) (word after after' : List Char) (lexeme : Lexeme)
    (halike : StopsAlike after after') (hmore : lexeme.more = word.length)
    (h : Lexeme.Class c (word ++ after) lexeme) : Lexeme.Class c (word ++ after') lexeme := by
  cases h with
  | lineBreak hc => exact .lineBreak hc
  | @pair kind d tail hrest hpair =>
    have hrest : word ++ after = [d] ++ tail := hrest
    obtain ⟨rfl, -⟩ := List.append_inj hrest hmore.symm
    exact .pair rfl hpair
  | single hkind hrest =>
    obtain rfl : word = [] := List.eq_nil_of_length_eq_zero hmore.symm
    exact .single hkind (halike.head (fun d hd => hd.ofPair? c) hrest)
  | @quoted body value tail hc hrest hbody =>
    rw [List.append_cons] at hrest
    obtain ⟨rfl, -⟩ := List.append_inj hrest (by simpa using hmore.symm)
    exact .quoted hc (List.append_assoc ..) hbody
  | whole hc hrest hdigits hafter hpoint =>
    obtain ⟨rfl, rfl⟩ := List.append_inj hrest hmore.symm
    refine .whole hc rfl hdigits (halike.head (fun d hd => hd.isDigit) hafter) fun d tail heq => ?_
    rcases halike.behindPoint d tail heq with hd | ⟨more, hrest⟩
    · exact hd.isDigit
    · exact hpoint d more hrest
  | fraction hc hrest hdigits hds hafter =>
    obtain ⟨rfl, rfl⟩ := List.append_inj hrest hmore.symm
    exact .fraction hc rfl hdigits hds (halike.head (fun d hd => hd.isDigit) hafter)
  | name hc hrest hword hafter =>
    obtain ⟨rfl, rfl⟩ := List.append_inj hrest hmore.symm
    exact .name hc rfl hword (halike.head (fun d hd => hd.1) hafter)

theorem word_of_read (c : Char) (rest : List Char) (lexeme : Lexeme)
    (h : Lexeme.read c rest = .ok lexeme) :
    ∃ word after, rest = word ++ after ∧ lexeme.more = word.length :=
  word_of_class c rest lexeme (class_of_read c rest lexeme h)

/-- A lexeme is read in front of every text that stops it as the one behind it does. -/
theorem read_of_stopsAlike (c : Char) (word after after' : List Char) (lexeme : Lexeme)
    (halike : StopsAlike after after') (hmore : lexeme.more = word.length)
    (h : Lexeme.read c (word ++ after) = .ok lexeme) :
    Lexeme.read c (word ++ after') = .ok lexeme :=
  read_of_class c _ lexeme
    (class_of_stopsAlike c word after after' lexeme halike hmore (class_of_read c _ lexeme h))

/-! ### Spellings of lexemes -/

theorem ofPair?_ne_string (c d : Char) : TokenKind.ofPair? c d ≠ some .string := by
  unfold TokenKind.ofPair?
  split <;> nofun

theorem ofChar?_ne_string (c : Char) : TokenKind.ofChar? c ≠ some .string := by
  unfold TokenKind.ofChar?
  split <;> nofun

theorem speltAs_of_read (c : Char) (rest : List Char) (lexeme : Lexeme) (p : Position)
    (h : Lexeme.read c rest = .ok lexeme) :
    Token.SpeltAs ⟨lexeme.kind, String.ofList lexeme.value, p⟩ (c :: rest.take lexeme.more) := by
  have hallows := allows_of_read c rest lexeme h
  -- every lexeme but a quoted text is its value
  have hplain : lexeme.kind ≠ .string → lexeme.value = c :: rest.take lexeme.more →
      Token.SpeltAs ⟨lexeme.kind, String.ofList lexeme.value, p⟩ (c :: rest.take lexeme.more) := by
    intro hs hvalue
    rw [hvalue] at hallows ⊢
    unfold Token.SpeltAs
    rw [if_neg hs, String.toList_ofList]
    refine ⟨fun hend : lexeme.kind = .endOfText => ?_, rfl, hallows⟩
    rw [hend] at hallows
    cases hallows
  cases class_of_read c rest lexeme h with
  | quoted hc hrest hbody =>
    subst hrest
    unfold Token.SpeltAs
    rw [if_pos rfl, String.toList_ofList]
    refine ⟨c, _, hc, ?_, hbody⟩
    rw [List.take_append, List.take_of_length_le (Nat.le_succ _), Nat.add_sub_cancel_left]
    rfl
  | lineBreak => exact hplain nofun rfl
  | pair hrest hpair =>
    subst hrest
    exact hplain (fun hs => ofPair?_ne_string c _ (hpair.trans (congrArg some hs))) rfl
  | single hkind => exact hplain (fun hs => ofChar?_ne_string c (hkind.trans (congrArg some hs))) rfl
  | whole _ hrest | fraction _ hrest | name _ hrest =>
    subst hrest
    exact hplain nofun (congrArg (c :: ·) List.take_left.symm)

/-! ### Longest lexemes -/

/-- A spelling of two characters or more that starts as no name and no numeral does is that of an
operator of two characters. -/
theorem pair_of_allows (kind : TokenKind) (c d : Char) (more : List Char) (hs : kind ≠ .string)
    (hdigit : Decimal.isDigit c = false) (hname : Text.isNameStart c = false)
    (h : kind.allows (c :: d :: more) = true) : more = [] ∧ TokenKind.ofPair? c d = some kind := by
  rcases start_of_allows kind c (d :: more) hs h with ⟨-, hc⟩ | ⟨-, hc⟩ | ⟨hsymbol, -⟩
  · rw [hdigit] at hc
    cases hc
  · rw [hname] at hc
    cases hc
  · exact ofPair?_of_symbol kind c d more hsymbol

/-- A spelling is the longest if no first characters of what follows make one of another token. -/
theorem isLongest_of_next (lexeme rest : List Char)
    (h : ∀ d ds tail (kind : TokenKind), kind ≠ .string → rest = d :: (ds ++ tail) →
      kind.allows (lexeme ++ d :: ds) ≠ true) : Lexeme.IsLongest lexeme rest := by
  intro more hne hmore kind hs
  obtain ⟨d, ds, rfl⟩ := List.exists_cons_of_ne_nil hne
  obtain ⟨tail, rfl⟩ := hmore
  exact Bool.eq_false_iff.mpr (h d ds tail kind hs rfl)

/-- Behind a spelling of one token, of which neither a name nor a numeral starts with its first
character, only a character that makes it an operator of two starts a longer one. -/
theorem isLongest_of_ofPair? (c : Char) (cs rest : List Char)
    (hc : Text.isNameStart c = false ∧ Decimal.isDigit c = false)
    (h : ∀ d ∈ rest.head?, cs = [] → TokenKind.ofPair? c d = none) :
    Lexeme.IsLongest (c :: cs) rest := by
  refine isLongest_of_next _ _ fun d ds tail kind hs htail hallows => ?_
  subst htail
  cases cs with
  | nil =>
    have hpair := (pair_of_allows kind c d ds hs hc.2 hc.1 hallows).2
    rw [h d rfl rfl] at hpair
    cases hpair
  | cons e es =>
    have hnil := (pair_of_allows kind c e _ hs hc.2 hc.1 hallows).1
    exact List.append_ne_nil_of_right_ne_nil es (List.cons_ne_nil d ds) hnil

theorem isLongest_of_name (c : Char) (more rest : List Char) (hc : Text.isNameStart c = true)
    (hrest : ∀ d ∈ rest.head?, Text.isNameChar d = false) : Lexeme.IsLongest (c :: more) rest := by
  refine isLongest_of_next _ _ fun d ds tail kind hs htail hallows => ?_
  subst htail
  rcases start_of_allows kind c _ hs hallows with ⟨-, hdigit⟩ | ⟨rfl, -⟩ | ⟨-, rfl | hchar⟩
  · rw [Piece.isDigit_of_isNameStart c hc] at hdigit
    cases hdigit
  · have hname : Text.isName (c :: (more ++ d :: ds)) = true := hallows
    simp only [Text.isName, Bool.and_eq_true, List.all_eq_true] at hname
    have hd := hname.2 d (List.mem_append_right more List.mem_cons_self)
    rw [hrest d rfl] at hd
    cases hd
  · exact absurd hc (by decide)
  · rw [ofChar?_eq_none c (.inl hc)] at hchar
    cases hchar

/-- A spelling that starts with a digit and goes on with characters of which the first is no digit is
that of a numeral with a fraction. -/
theorem fraction_of_allows (kind : TokenKind) (c e : Char) (digits more : List Char)
    (hs : kind ≠ .string) (hdigits : ∀ d ∈ c :: digits, Decimal.isDigit d = true)
    (he : Decimal.isDigit e = false) (h : kind.allows (c :: digits ++ e :: more) = true) :
    e = '.' ∧ more ≠ [] ∧ ∀ d ∈ more, Decimal.isDigit d = true := by
  have hc := hdigits c List.mem_cons_self
  rcases start_of_allows kind c _ hs h with ⟨rfl, -⟩ | ⟨-, hname⟩ | ⟨-, rfl | hchar⟩
  · have hnumeral : Text.isPlainNumeral (c :: digits ++ e :: more) = true := h
    have hstop : ∀ d ∈ (e :: more).head?, Decimal.isDigit d = false := by
      intro d hd
      obtain rfl : e = d := Option.some.inj hd
      exact he
    rw [Text.isPlainNumeral, Piece.takeWhile_append_stop _ _ _ hdigits hstop,
      Piece.dropWhile_append_stop _ _ _ hdigits hstop] at hnumeral
    simpa [and_assoc] using hnumeral
  · rw [Piece.isDigit_of_isNameStart c hname] at hc
    cases hc
  · exact absurd hc (by decide)
  · rw [ofChar?_eq_none c (.inr (.inl hc))] at hchar
    cases hchar

theorem isLongest_of_whole (c : Char) (digits rest : List Char)
    (hdigits : ∀ d ∈ c :: digits, Decimal.isDigit d = true)
    (hrest : ∀ d ∈ rest.head?, Decimal.isDigit d = false)
    (hpoint : ∀ d tail, rest = '.' :: d :: tail → Decimal.isDigit d = false) :
    Lexeme.IsLongest (c :: digits) rest := by
  refine isLongest_of_next _ _ fun e es tail kind hs htail hallows => ?_
  subst htail
  obtain ⟨rfl, hes, hfraction⟩ :=
    fraction_of_allows kind c e digits es hs hdigits (hrest e rfl) hallows
  obtain ⟨d, ds, rfl⟩ := List.exists_cons_of_ne_nil hes
  have hd := hfraction d List.mem_cons_self
  rw [hpoint d (ds ++ tail) rfl] at hd
  cases hd

theorem isLongest_of_fraction (c : Char) (digits ds rest : List Char)
    (hdigits : ∀ d ∈ c :: digits, Decimal.isDigit d = true)
    (hrest : ∀ d ∈ rest.head?, Decimal.isDigit d = false) :
    Lexeme.IsLongest (c :: (digits ++ '.' :: ds)) rest := by
  refine isLongest_of_next _ _ fun e es tail kind hs htail hallows => ?_
  subst htail
  rw [← List.cons_append, List.append_assoc] at hallows
  obtain ⟨-, -, hfraction⟩ := fraction_of_allows kind c '.' digits _ hs hdigits (by decide) hallows
  have he := hfraction e (List.mem_append_right _ List.mem_cons_self)
  rw [hrest e rfl] at he
  cases he

theorem not_start_of_ofChar? (c : Char) (h : (TokenKind.ofChar? c).isSome = true) :
    Text.isNameStart c = false ∧ Decimal.isDigit c = false := by
  constructor <;> refine Bool.eq_false_iff.mpr fun hc => ?_
  · rw [ofChar?_eq_none c (.inl hc)] at h
    cases h
  · rw [ofChar?_eq_none c (.inr (.inl hc))] at h
    cases h

theorem isLongest_of_read (c : Char) (rest : List Char) (lexeme : Lexeme)
    (h : Lexeme.read c rest = .ok lexeme) :
    Lexeme.IsLongest (c :: rest.take lexeme.more) (rest.drop lexeme.more) := by
  cases class_of_read c rest lexeme h with
  | lineBreak hc =>
    subst hc
    exact isLongest_of_ofPair? _ _ _ (by decide) fun d _ _ => rfl
  | pair hrest hpair =>
    subst hrest
    refine isLongest_of_ofPair? _ _ _ (not_start_of_ofChar? c ?_) fun _ _ h => nomatch h
    refine Option.isSome_iff_ne_none.mpr fun hnone => ?_
    rw [ofPair?_eq_none_of_ofChar? c _ hnone] at hpair
    cases hpair
  | single hkind hrest =>
    have hc := not_start_of_ofChar? c (Option.isSome_of_eq_some hkind)
    exact isLongest_of_ofPair? _ _ _ hc fun d hd _ => hrest d hd
  | quoted hc =>
    have hstart : Text.isNameStart c = false ∧ Decimal.isDigit c = false := by
      rcases hc with rfl | rfl <;> decide
    refine isLongest_of_ofPair? _ _ _ hstart fun d _ _ => ?_
    exact ofPair?_eq_none_of_ofChar? c d (ofChar?_eq_none c (.inr (.inr (hc.imp_right .inl))))
  | whole hc hrest hdigits hafter hpoint =>
    rw [hrest, Lexeme.plain, List.take_left, List.drop_left]
    exact isLongest_of_whole c _ _ (List.forall_mem_cons.mpr ⟨hc, hdigits⟩) hafter hpoint
  | fraction hc hrest hdigits _ hafter =>
    rw [hrest, Lexeme.plain, List.take_left, List.drop_left]
    exact isLongest_of_fraction c _ _ _ (List.forall_mem_cons.mpr ⟨hc, hdigits⟩) hafter
  | name hc hrest _ hafter =>
    rw [hrest, Lexeme.plain, List.take_left, List.drop_left]
    exact isLongest_of_name c _ _ hc hafter

/-! ### Stops -/

/-- Whether a character is at the start of no token's spelling. -/
def StartsNone (c : Char) : Prop :=
  c ≠ '\n' ∧ TokenKind.ofChar? c = none ∧ c ≠ '"' ∧ c ≠ '\'' ∧ Decimal.isDigit c = false ∧
    Text.isNameStart c = false

theorem read_error_cases (c : Char) (rest : List Char) (cause : LexicalCause)
    (h : Lexeme.read c rest = .error cause) :
    (c = '"' ∨ c = '\'') ∧ Lexeme.quotedBody? c rest = none ∧ cause = .unterminatedString ∨
      StartsNone c ∧ cause = .unexpectedCharacter c := by
  unfold Lexeme.read at h
  split at h
  next => cases h
  next hbreak =>
  split at h
  next => cases h
  next hoperator =>
  split at h
  next hquote =>
    split at h
    next => cases h
    next hbody =>
      cases h
      exact .inl ⟨by simpa using hquote, hbody, rfl⟩
  next hquote =>
  split at h
  next => cases h
  next hdigit =>
  split at h
  next => cases h
  next hname =>
    cases h
    rw [Lexeme.operator?, Option.or_eq_none_iff, Option.map_eq_none_iff] at hoperator
    have hc : c ≠ '"' ∧ c ≠ '\'' := by simpa using hquote
    exact .inr ⟨⟨hbreak, hoperator.2, hc.1, hc.2, Bool.eq_false_iff.mpr hdigit,
      Bool.eq_false_iff.mpr hname⟩, rfl⟩

theorem read_of_startsNone (c : Char) (rest : List Char) (h : StartsNone c) :
    Lexeme.read c rest = .error (.unexpectedCharacter c) := by
  obtain ⟨hbreak, hchar, hdouble, hsingle, hdigit, hname⟩ := h
  simp [Lexeme.read, hbreak, operator?_eq_none_of_ofChar? c rest hchar, hdouble, hsingle, hdigit,
    hname]

theorem stops_of_read (c : Char) (rest : List Char) (cause : LexicalCause)
    (hgap : Text.isGap c = false) (hhash : c ≠ '#') (h : Lexeme.read c rest = .error cause) :
    cause.Stops c rest := by
  rcases read_error_cases c rest cause h with
    ⟨hc, hbody, rfl⟩ | ⟨⟨hbreak, hchar, hdouble, hsingle, hdigit, hname⟩, rfl⟩
  · refine ⟨hc, fun body value tail hrest hdecodes => ?_⟩
    have hback : c ≠ '\\' := by
      rcases hc with rfl | rfl <;> decide
    rw [hrest, quotedBody?_of_decodes c hback body value tail hdecodes] at hbody
    cases hbody
  · refine ⟨rfl, hgap, hhash, hdouble, hsingle, fun lexeme hne hstart kind hs => ?_⟩
    refine Bool.eq_false_iff.mpr fun hallows => ?_
    obtain ⟨d, ds, rfl⟩ := List.exists_cons_of_ne_nil hne
    obtain ⟨tail, htail⟩ := hstart
    obtain ⟨rfl, -⟩ := List.cons.inj htail
    rcases start_of_allows kind d ds hs hallows with ⟨-, hd⟩ | ⟨-, hd⟩ | ⟨-, hd | hd⟩
    · exact absurd (hdigit.symm.trans hd) Bool.false_ne_true
    · exact absurd (hname.symm.trans hd) Bool.false_ne_true
    · exact hbreak hd
    · rw [hchar] at hd
      cases hd

/-! ### Texts -/

/-- How the text behind `before` splits when it is scanned from there. -/
def Token.Scanned (before cs : List Char) : Except Fault (List Token) → Prop
  | .ok tokens =>
    ∃ ts, tokens = ts ++ [⟨.endOfText, "", Position.behind (before ++ cs)⟩] ∧
      Token.Splits before ts cs []
  | .error fault =>
    ∃ ts text c rest cause, cs = text ++ c :: rest ∧
      fault = .lexical cause (Position.behind (before ++ text)) ∧
      Token.Splits before ts text (c :: rest) ∧ cause.Stops c rest

/-- A piece of text in front of scanned text, and the tokens that it holds. -/
theorem scanned_of_piece (before piece cs : List Char) (held : List Token)
    (result : Except Fault (List Token))
    (hpiece : ∀ ts text rest, text ++ rest = cs →
      Token.Splits (before ++ piece) ts text rest →
        Token.Splits before (held ++ ts) (piece ++ text) rest)
    (h : Token.Scanned (before ++ piece) cs result) :
    Token.Scanned before (piece ++ cs) (result.map (held ++ ·)) := by
  cases result with
  | ok tokens =>
    obtain ⟨ts, rfl, hts⟩ := h
    refine ⟨held ++ ts, ?_, hpiece ts cs [] (List.append_nil cs) hts⟩
    rw [List.append_assoc, List.append_assoc]
  | error fault =>
    obtain ⟨ts, text, c, rest, cause, rfl, rfl, hts, hstops⟩ := h
    refine ⟨held ++ ts, piece ++ text, c, rest, cause, ?_, ?_, hpiece ts text _ rfl hts, hstops⟩
    · rw [List.append_assoc]
    · rw [List.append_assoc]

theorem scanned_of_gap (before piece cs : List Char) (result : Except Fault (List Token))
    (hpiece : ∀ ts text rest, text ++ rest = cs →
      Token.Splits (before ++ piece) ts text rest → Token.Splits before ts (piece ++ text) rest)
    (h : Token.Scanned (before ++ piece) cs result) : Token.Scanned before (piece ++ cs) result := by
  have hnone : result.map ([] ++ ·) = result := by cases result <;> rfl
  rw [← hnone]
  exact scanned_of_piece before piece cs [] result hpiece h

theorem scanFrom_scanned (p : Position) (before cs : List Char) (hp : p = Position.behind before) :
    Token.Scanned before cs (Token.scanFrom p cs) := by
  -- what is scanned goes over to the text before, by which the place is counted
  fun_induction Token.scanFrom p cs generalizing before with
  | case1 p =>
    subst hp
    exact ⟨[], by rw [List.append_nil]; rfl, .nil⟩
  | case2 p c rest hgap ih =>
    subst hp
    have hrest := ih (before ++ [c]) (Position.step_behind before c)
    exact scanned_of_gap before [c] rest _ (fun _ _ _ _ hts => .blank hgap hts) hrest
  | case3 p rest comment hgap ih =>
    subst hp
    obtain ⟨after, hcs, hdrop, hbody, hafter⟩ := exists_comment rest
    have hdrop : rest.drop comment.length = after := hdrop
    have hrest := ih (before ++ '#' :: comment) (Position.after_behind before _)
    rw [hdrop] at hrest ⊢
    have hsplit : rest = comment ++ after := hcs
    rw [hsplit]
    refine scanned_of_gap before ('#' :: comment) after _ (fun ts text rest htext hts => ?_) hrest
    refine .comment hbody ?_ hts
    rw [htext]
    exact hafter
  | case4 p c rest hgap hhash cause hread =>
    subst hp
    refine ⟨[], [], c, rest, cause, rfl, by rw [List.append_nil], .nil, ?_⟩
    exact stops_of_read c rest cause (Bool.eq_false_iff.mpr hgap) hhash hread
  | case5 p c rest hgap hhash lexeme hread taken ih =>
    subst hp
    have hrest := ih (before ++ taken) (Position.after_behind before taken)
    have htaken : c :: rest = taken ++ rest.drop lexeme.more :=
      congrArg (c :: ·) (List.take_append_drop lexeme.more rest).symm
    rw [htaken]
    refine scanned_of_piece before taken _ [⟨lexeme.kind, _, Position.behind before⟩] _
      (fun ts text after htext hts => ?_) hrest
    refine .token (speltAs_of_read c rest lexeme _ hread) ?_ rfl hts
    rw [htext]
    exact isLongest_of_read c rest lexeme hread

/-- Every text splits into blanks, comments and the spellings of its tokens, each as long as it can
be and in its place, with the end of the text behind the last; or it does so up to the character
that the fault names the place of, at which no token starts or a string starts that never ends. -/
theorem scan_splits (source : String) :
    match Token.scan source with
    | .ok tokens =>
      ∃ ts, tokens = ts ++ [⟨.endOfText, "", Position.behind source.toList⟩] ∧
        Token.Splits [] ts source.toList []
    | .error fault =>
      ∃ ts text c rest cause, source.toList = text ++ c :: rest ∧
        fault = .lexical cause (Position.behind text) ∧
        Token.Splits [] ts text (c :: rest) ∧ cause.Stops c rest := by
  have h : Token.Scanned [] source.toList (Token.scan source) :=
    scanFrom_scanned ⟨1, 1⟩ [] source.toList rfl
  revert h
  cases Token.scan source <;> exact id

end ProseGrammar
