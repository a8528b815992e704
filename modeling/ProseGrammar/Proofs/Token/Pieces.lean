import ProseGrammar.Grammar.Source

/-!
# Text in pieces

A text that is made of spellings of tokens, with a space here and there, scans to these tokens as
long as no spelling runs into the characters after it. Names and numerals run into more letters and
digits, some operators of one character into an equals sign or a colon; brackets, points and quoted
texts run into nothing.
-/

namespace ProseGrammar

/-! ### Spellings -/

/-- The characters of an operator or of a line break; other kinds have no fixed ones. -/
def TokenKind.symbol : TokenKind → List Char
  | assign => ['=']
  | plusAssign => ['+', '=']
  | minusAssign => ['-', '=']
  | define => [':', '=']
  | plus => ['+']
  | minus => ['-']
  | star => ['*']
  | slash => ['/']
  | equal => ['=', '=']
  | notEqual => ['!', '=']
  | less => ['<']
  | greater => ['>']
  | lessEqual => ['<', '=']
  | greaterEqual => ['>', '=']
  | dot => ['.']
  | comma => [',']
  | pipe => ['|']
  | colon => [':']
  | doubleColon => [':', ':']
  | question => ['?']
  | bang => ['!']
  | semicolon => [';']
  | dollar => ['$']
  | leftParen => ['(']
  | rightParen => [')']
  | leftBracket => ['[']
  | rightBracket => [']']
  | newline => ['\n']
  | string | number | identifier | endOfText => []

/-- A piece of grammar text: a space, or a token as it is spelt. -/
inductive Piece
  | gap
  | token (kind : TokenKind) (value chars : List Char)

namespace Piece

def symbol (kind : TokenKind) : Piece :=
  token kind kind.symbol kind.symbol

def name (cs : List Char) : Piece :=
  token .identifier cs cs

def numeral (cs : List Char) : Piece :=
  token .number cs cs

def quote (cs : List Char) : Piece :=
  token .string cs ('"' :: cs.flatMap Text.stringChar ++ ['"'])

def chars : Piece → List Char
  | gap => [' ']
  | token _ _ cs => cs

def text (ps : List Piece) : List Char :=
  ps.flatMap chars

/-- The tokens of a list of pieces that starts at a position, with the end of the text. -/
def tokens : (p : Position) → List Piece → List Token
  | p, [] => [⟨.endOfText, "", p⟩]
  | p, gap :: ps => tokens (p.step ' ') ps
  | p, token kind value cs :: ps => ⟨kind, String.ofList value, p⟩ :: tokens (p.after cs) ps

@[simp] theorem text_nil : text [] = [] := rfl

@[simp] theorem text_cons (q : Piece) (ps : List Piece) : text (q :: ps) = q.chars ++ text ps :=
  List.flatMap_cons

@[simp] theorem text_append (ps qs : List Piece) : text (ps ++ qs) = text ps ++ text qs :=
  List.flatMap_append

/-! ### Legible text -/

/-- Whether the characters of a token are read as that token when `rest` follows them. -/
def Spells (kind : TokenKind) (value cs rest : List Char) : Prop :=
  ∃ c more, cs = c :: more ∧ Text.isGap c = false ∧ c ≠ '#' ∧
    Lexeme.read c (more ++ rest) = .ok ⟨kind, value, more.length⟩

/-- Whether every token of a list of pieces is read back when `rest` follows the pieces. -/
def Legible : List Piece → (rest : List Char) → Prop
  | [], _ => True
  | gap :: ps, rest => Legible ps rest
  | token kind value cs :: ps, rest => Spells kind value cs (text ps ++ rest) ∧ Legible ps rest

theorem legible_append (ps qs : List Piece) (rest : List Char) :
    Legible (ps ++ qs) rest ↔ Legible ps (text qs ++ rest) ∧ Legible qs rest := by
  induction ps with
  | nil => simp [Legible]
  | cons q ps ih =>
    cases q with
    | gap => simpa [Legible] using ih
    | token kind value cs =>
      simp only [List.cons_append, Legible, text_append, List.append_assoc, ih, and_assoc]

theorem scanFrom_gap (p : Position) (c : Char) (rest : List Char) (h : Text.isGap c = true) :
    Token.scanFrom p (c :: rest) = Token.scanFrom (p.step c) rest := by
  rw [Token.scanFrom, if_pos h]

theorem scanFrom_space (p : Position) (cs : List Char) :
    Token.scanFrom p (' ' :: cs) = Token.scanFrom (p.step ' ') cs :=
  scanFrom_gap p ' ' cs (by decide)

theorem scanFrom_lexeme (p : Position) (c : Char) (word rest : List Char) (lexeme : Lexeme)
    (hgap : Text.isGap c = false) (hhash : c ≠ '#') (hmore : lexeme.more = word.length)
    (h : Lexeme.read c (word ++ rest) = .ok lexeme) :
    Token.scanFrom p (c :: (word ++ rest)) =
      (⟨lexeme.kind, String.ofList lexeme.value, p⟩ :: ·) <$>
        Token.scanFrom (p.after (c :: word)) rest := by
  rw [Token.scanFrom, if_neg (Bool.eq_false_iff.mp hgap), if_neg hhash, h]
  dsimp only
  rw [hmore, List.take_left, List.drop_left]
  rfl

theorem scanFrom_spells (kind : TokenKind) (value cs rest : List Char)
    (h : Spells kind value cs rest) (p : Position) (ts : List Token)
    (hr : Token.scanFrom (p.after cs) rest = .ok ts) :
    Token.scanFrom p (cs ++ rest) = .ok (⟨kind, String.ofList value, p⟩ :: ts) := by
  obtain ⟨c, more, rfl, hgap, hhash, hread⟩ := h
  rw [List.cons_append, scanFrom_lexeme p c more rest _ hgap hhash rfl hread, hr]
  rfl

theorem scanFrom_text (ps : List Piece) (h : Legible ps []) (p : Position) :
    Token.scanFrom p (text ps) = .ok (tokens p ps) := by
  induction ps generalizing p with
  | nil => rw [text_nil, Token.scanFrom, tokens]
  | cons q ps ih =>
    cases q with
    | gap => exact (scanFrom_space p (text ps)).trans (ih h (p.step ' '))
    | token kind value cs =>
      obtain ⟨hs, hps⟩ := h
      rw [List.append_nil] at hs
      exact scanFrom_spells kind value cs (text ps) hs p _ (ih hps (p.after cs))

/-! ### What may follow a token -/

/-- Whether a text starts with none of the characters that go on with an operator. -/
def Apart (rest : List Char) : Prop :=
  ∀ c ∈ rest.head?, c ≠ '=' ∧ c ≠ ':'

/-- Whether a text starts with a space, a line break or a closing mark, if with anything. -/
def Free (rest : List Char) : Prop :=
  ∀ c ∈ rest.head?, c = ' ' ∨ c = '\n' ∨ c = ';' ∨ c = ']' ∨ c = ')'

theorem free_nil : Free [] := by
  intro c h
  cases h

theorem free_cons (c : Char) (h : c = ' ' ∨ c = '\n' ∨ c = ';' ∨ c = ']' ∨ c = ')')
    (cs : List Char) : Free (c :: cs) := by
  intro d hd
  obtain rfl : c = d := by simpa using hd
  exact h

theorem apart_of_free (rest : List Char) (h : Free rest) : Apart rest := by
  intro c hc
  rcases h c hc with rfl | rfl | rfl | rfl | rfl <;> decide

theorem isNameChar_of_free (rest : List Char) (h : Free rest) :
    ∀ c ∈ rest.head?, Text.isNameChar c = false := by
  intro c hc
  rcases h c hc with rfl | rfl | rfl | rfl | rfl <;> decide

theorem ofPair?_eq_none (c d : Char) (h : d ≠ '=') (h' : d ≠ ':') :
    TokenKind.ofPair? c d = none := by
  unfold TokenKind.ofPair?
  split <;> simp_all

/-! ### Operators -/

theorem spells_operator (kind : TokenKind) (c : Char) (rest : List Char)
    (hc : TokenKind.ofChar? c = some kind) (hp : Lexeme.pair? c rest = none)
    (hgap : Text.isGap c = false) (hhash : c ≠ '#') (hbreak : c ≠ '\n') :
    Spells kind [c] [c] rest := by
  refine ⟨c, [], rfl, hgap, hhash, ?_⟩
  simp [Lexeme.read, hbreak, Lexeme.operator?, hp, hc, Lexeme.plain]

theorem spells_pair (kind : TokenKind) (c d : Char) (rest : List Char)
    (h : TokenKind.ofPair? c d = some kind) (hgap : Text.isGap c = false) (hhash : c ≠ '#')
    (hbreak : c ≠ '\n') : Spells kind [c, d] [c, d] rest := by
  refine ⟨c, [d], rfl, hgap, hhash, ?_⟩
  simp [Lexeme.read, hbreak, Lexeme.operator?, Lexeme.pair?, h, Lexeme.plain]

theorem spells_newline (rest : List Char) : Spells .newline ['\n'] ['\n'] rest := by
  refine ⟨'\n', [], rfl, by decide, by decide, ?_⟩
  simp [Lexeme.read, Lexeme.plain]

theorem pair?_eq_none (c : Char) (rest : List Char) (h : Apart rest) : Lexeme.pair? c rest = none := by
  cases rest with
  | nil => rfl
  | cons d rest =>
    obtain ⟨heq, hcolon⟩ := h d rfl
    simp [Lexeme.pair?, ofPair?_eq_none c d heq hcolon]

/-- The kinds that are spelt in the same way before every text. -/
def isClosed : TokenKind → Bool
  | .assign | .plus | .minus | .less | .greater | .colon | .bang => false
  | .string | .number | .identifier | .endOfText => false
  | _ => true

/-- The kinds that have characters of their own. -/
def isSymbol : TokenKind → Bool
  | .string | .number | .identifier | .endOfText => false
  | _ => true

theorem spells_closed (kind : TokenKind) (h : isClosed kind = true) (rest : List Char) :
    Spells kind kind.symbol kind.symbol rest := by
  have single : ∀ c, TokenKind.ofChar? c = some kind → (∀ d, TokenKind.ofPair? c d = none) →
      Text.isGap c = false → c ≠ '#' → c ≠ '\n' → Spells kind [c] [c] rest := by
    intro c hc hp hgap hhash hbreak
    refine spells_operator kind c rest hc ?_ hgap hhash hbreak
    cases rest with
    | nil => rfl
    | cons d rest => simp [Lexeme.pair?, hp d]
  cases kind <;> try cases h
  all_goals first
    | exact spells_newline rest
    | exact spells_pair _ _ _ rest rfl (by decide) (by decide) (by decide)
    | exact single _ rfl (fun d => rfl) (by decide) (by decide) (by decide)

theorem spells_symbol (kind : TokenKind) (h : isSymbol kind = true) (rest : List Char)
    (hr : Apart rest) : Spells kind kind.symbol kind.symbol rest := by
  by_cases hclosed : isClosed kind = true
  · exact spells_closed kind hclosed rest
  · cases kind <;> try exact absurd rfl hclosed
    all_goals try cases h
    all_goals
      exact spells_operator _ _ rest rfl (pair?_eq_none _ rest hr) (by decide) (by decide)
        (by decide)

/-! ### Names, numerals and quoted texts -/

theorem takeWhile_append_stop (p : Char → Bool) (cs rest : List Char) (h : ∀ c ∈ cs, p c = true)
    (hr : ∀ c ∈ rest.head?, p c = false) : (cs ++ rest).takeWhile p = cs := by
  rw [List.takeWhile_append_of_pos h]
  cases rest with
  | nil => simp
  | cons c rest => simp [hr c rfl]

theorem dropWhile_append_stop (p : Char → Bool) (cs rest : List Char) (h : ∀ c ∈ cs, p c = true)
    (hr : ∀ c ∈ rest.head?, p c = false) : (cs ++ rest).dropWhile p = rest := by
  rw [List.dropWhile_append_of_pos h]
  cases rest with
  | nil => rfl
  | cons c rest => rw [List.dropWhile_cons_of_neg (by simp [hr c rfl])]

theorem operator?_eq_none (c : Char) (rest : List Char)
    (h : Text.isNameStart c = true ∨ Decimal.isDigit c = true ∨ c = '"') :
    Lexeme.operator? c rest = none := by
  have single : TokenKind.ofChar? c = none := by
    unfold TokenKind.ofChar?
    split <;> first | rfl | exact absurd h (by decide)
  have pair : ∀ d, TokenKind.ofPair? c d = none := by
    intro d
    unfold TokenKind.ofPair?
    split <;> first | rfl | exact absurd h (by decide)
  cases rest <;> simp [Lexeme.operator?, Lexeme.pair?, single, pair]

theorem isGap_eq_false (c : Char)
    (h : Text.isNameStart c = true ∨ Decimal.isDigit c = true ∨ c = '"') :
    Text.isGap c = false := by
  cases hg : Text.isGap c with
  | false => rfl
  | true =>
    simp only [Text.isGap, Bool.or_eq_true, beq_iff_eq] at hg
    rcases hg with (rfl | rfl) | rfl <;> exact absurd h (by decide)

theorem isDigit_of_isNameStart (c : Char) (hc : Text.isNameStart c = true) :
    Decimal.isDigit c = false := by
  cases hd : Decimal.isDigit c with
  | false => rfl
  | true =>
    simp only [Text.isNameStart, Decimal.isDigit, Bool.or_eq_true, Bool.and_eq_true,
      decide_eq_true_eq, beq_iff_eq] at hc hd
    rcases hc with (⟨h₁, -⟩ | ⟨h₁, -⟩) | rfl
    · exact absurd (Char.le_trans h₁ hd.2) (by decide)
    · exact absurd (Char.le_trans h₁ hd.2) (by decide)
    · exact absurd hd.2 (by decide)

theorem read_of_isNameStart (c : Char) (rest : List Char) (hc : Text.isNameStart c = true) :
    Lexeme.read c rest = .ok (Lexeme.plain .identifier c (rest.takeWhile Text.isNameChar)) := by
  have hdigit := isDigit_of_isNameStart c hc
  have hbreak : c ≠ '\n' := by
    rintro rfl
    exact absurd hc (by decide)
  have hquote : c ≠ '"' ∧ c ≠ '\'' := by
    constructor <;> (rintro rfl; exact absurd hc (by decide))
  simp only [Lexeme.read, if_neg hbreak, operator?_eq_none c _ (.inl hc), hquote, hdigit, decide_false,
    Bool.or_self, Bool.false_eq_true, if_false, hc, if_true]

theorem read_of_isDigit (c : Char) (rest : List Char) (hc : Decimal.isDigit c = true) :
    Lexeme.read c rest = .ok (Lexeme.plain .number c (rest.takeWhile Decimal.isDigit ++
      Lexeme.fraction (rest.drop (rest.takeWhile Decimal.isDigit).length))) := by
  have hbreak : c ≠ '\n' := by
    rintro rfl
    exact absurd hc (by decide)
  have hquote : c ≠ '"' ∧ c ≠ '\'' := by
    constructor <;> (rintro rfl; exact absurd hc (by decide))
  simp only [Lexeme.read, if_neg hbreak, operator?_eq_none c _ (.inr (.inl hc)), hquote, decide_false,
    Bool.or_self, Bool.false_eq_true, if_false, hc, if_true]

theorem spells_name (cs : List Char) (h : Text.isName cs = true) (rest : List Char)
    (hr : ∀ c ∈ rest.head?, Text.isNameChar c = false) : Spells .identifier cs cs rest := by
  cases cs with
  | nil => cases h
  | cons c cs =>
    simp only [Text.isName, Bool.and_eq_true, List.all_eq_true] at h
    obtain ⟨hc, hcs⟩ := h
    have hword : (cs ++ rest).takeWhile Text.isNameChar = cs := takeWhile_append_stop _ cs rest hcs hr
    refine ⟨c, cs, rfl, isGap_eq_false c (.inl hc), ?_, ?_⟩
    · rintro rfl
      exact absurd hc (by decide)
    · rw [read_of_isNameStart c _ hc, hword]
      rfl

theorem isPlainNumeral_cases (cs : List Char) (h : Text.isPlainNumeral cs = true) :
    ∃ c ds, (∀ d ∈ c :: ds, Decimal.isDigit d = true) ∧
      (cs = c :: ds ∨ ∃ e es, (∀ d ∈ e :: es, Decimal.isDigit d = true) ∧
        cs = c :: ds ++ '.' :: e :: es) := by
  simp only [Text.isPlainNumeral, Bool.and_eq_true, Bool.not_eq_true'] at h
  obtain ⟨hw, hf⟩ := h
  have hsplit : cs.takeWhile Decimal.isDigit ++ cs.dropWhile Decimal.isDigit = cs :=
    List.takeWhile_append_dropWhile
  have hdigits : ∀ d ∈ cs.takeWhile Decimal.isDigit, Decimal.isDigit d = true := fun d hd =>
    (List.all_eq_true.mp List.all_takeWhile) d hd
  obtain ⟨c, ds, hcs⟩ : ∃ c ds, cs.takeWhile Decimal.isDigit = c :: ds :=
    List.exists_cons_of_ne_nil (by simpa using hw)
  rw [hcs] at hsplit hdigits
  refine ⟨c, ds, hdigits, ?_⟩
  split at hf
  next hrest =>
    rw [hrest, List.append_nil] at hsplit
    exact .inl hsplit.symm
  next point es hrest =>
    simp only [Bool.and_eq_true, beq_iff_eq, Bool.not_eq_true', List.all_eq_true] at hf
    obtain ⟨⟨rfl, hne⟩, hes⟩ := hf
    cases es with
    | nil => cases hne
    | cons e es =>
      rw [hrest] at hsplit
      exact .inr ⟨e, es, hes, hsplit.symm⟩

theorem isPlainNumeral_append (ds more : List Char) (hne : ds ≠ [])
    (hds : ∀ d ∈ ds, Decimal.isDigit d = true)
    (hmore : more = [] ∨ ∃ es, more = '.' :: es ∧ es ≠ [] ∧ ∀ e ∈ es, Decimal.isDigit e = true) :
    Text.isPlainNumeral (ds ++ more) = true := by
  have hstop : ∀ c ∈ more.head?, Decimal.isDigit c = false := by
    intro c hc
    rcases hmore with rfl | ⟨es, rfl, -, -⟩
    · cases hc
    · obtain rfl : c = '.' := (Option.some.inj hc).symm
      decide
  rw [Text.isPlainNumeral, takeWhile_append_stop _ ds more hds hstop,
    dropWhile_append_stop _ ds more hds hstop]
  rcases hmore with rfl | ⟨es, rfl, hes, hdigits⟩
  · simpa using hne
  · simpa [hne, hes] using hdigits

theorem isName_of_isPlainNumeral (cs : List Char) (h : Text.isPlainNumeral cs = true) :
    Text.isName cs = false := by
  obtain ⟨c, ds, hds, hcs⟩ := isPlainNumeral_cases cs h
  have hc : Text.isNameStart c = false := by
    cases hs : Text.isNameStart c with
    | false => rfl
    | true =>
      have hd := isDigit_of_isNameStart c hs
      rw [hds c List.mem_cons_self] at hd
      cases hd
  rcases hcs with rfl | ⟨e, es, -, rfl⟩ <;> simp [Text.isName, hc]

theorem spells_numeral (cs : List Char) (h : Text.isPlainNumeral cs = true) (rest : List Char)
    (hr : Free rest) : Spells .number cs cs rest := by
  have hstop : ∀ c ∈ rest.head?, Decimal.isDigit c = false ∧ c ≠ '.' := by
    intro c hc
    rcases hr c hc with rfl | rfl | rfl | rfl | rfl <;> decide
  obtain ⟨c, ds, hds, hcs⟩ := isPlainNumeral_cases cs h
  have hc : Decimal.isDigit c = true := hds c List.mem_cons_self
  have hhash : c ≠ '#' := by
    rintro rfl
    exact absurd hc (by decide)
  rcases hcs with rfl | ⟨e, es, hes, rfl⟩
  · refine ⟨c, ds, rfl, isGap_eq_false c (.inr (.inl hc)), hhash, ?_⟩
    have hwhole : (ds ++ rest).takeWhile Decimal.isDigit = ds :=
      takeWhile_append_stop _ ds rest (fun d hd => hds d (List.mem_cons_of_mem c hd))
        fun c hc => (hstop c hc).1
    have hfraction : Lexeme.fraction rest = [] := by
      unfold Lexeme.fraction
      split
      next d rest => exact absurd rfl (hstop '.' rfl).2
      next => rfl
    rw [read_of_isDigit c _ hc, hwhole, List.drop_left, hfraction, List.append_nil]
    rfl
  · refine ⟨c, ds ++ '.' :: e :: es, rfl, isGap_eq_false c (.inr (.inl hc)), hhash, ?_⟩
    have he : Decimal.isDigit e = true := hes e List.mem_cons_self
    have hwhole : (ds ++ '.' :: e :: (es ++ rest)).takeWhile Decimal.isDigit = ds :=
      takeWhile_append_stop _ ds _ (fun d hd => hds d (List.mem_cons_of_mem c hd)) fun c hc => by
        obtain rfl : '.' = c := by simpa using hc
        decide
    have hfraction : Lexeme.fraction ('.' :: e :: (es ++ rest)) = '.' :: e :: es := by
      simp only [Lexeme.fraction, he, if_true]
      rw [takeWhile_append_stop _ es rest (fun d hd => hes d (List.mem_cons_of_mem e hd))
        fun c hc => (hstop c hc).1]
    simp only [List.append_assoc, List.cons_append]
    rw [read_of_isDigit c _ hc, hwhole, List.drop_left, hfraction]
    rfl

theorem stringChar_cases (c : Char) :
    (∃ e, Text.stringChar c = ['\\', e] ∧ Lexeme.unescape e = c) ∨
      (Text.stringChar c = [c] ∧ c ≠ '"' ∧ c ≠ '\\') := by
  unfold Text.stringChar
  split
  next => exact .inl ⟨_, rfl, rfl⟩
  next => exact .inl ⟨_, rfl, rfl⟩
  next => exact .inl ⟨_, rfl, rfl⟩
  next => exact .inl ⟨_, rfl, rfl⟩
  next => exact .inl ⟨_, rfl, rfl⟩
  next hback hmark _ _ _ => exact .inr ⟨rfl, hmark, hback⟩

theorem quotedBody?_plain (c : Char) (cs : List Char) (hmark : c ≠ '"') (hback : c ≠ '\\') :
    Lexeme.quotedBody? '"' (c :: cs) =
      (Lexeme.quotedBody? '"' cs).map fun body => (c :: body.1, body.2 + 1) := by
  rw [Lexeme.quotedBody?.eq_def]
  simp only [if_neg hmark, if_neg hback]

/-- A string ends at its closing mark, and its escapes stand for the characters they came from. -/
theorem quotedBody?_flatMap (cs rest : List Char) :
    Lexeme.quotedBody? '"' (cs.flatMap Text.stringChar ++ '"' :: rest) =
      some (cs, (cs.flatMap Text.stringChar).length + 1) := by
  induction cs with
  | nil =>
    rw [List.flatMap_nil, List.nil_append, Lexeme.quotedBody?.eq_def]
    rfl
  | cons c cs ih =>
    rw [List.flatMap_cons, List.append_assoc]
    rcases stringChar_cases c with ⟨e, he, hc⟩ | ⟨he, hmark, hback⟩
    · have hstep : Lexeme.quotedBody? '"'
          ('\\' :: e :: (cs.flatMap Text.stringChar ++ '"' :: rest)) =
            (Lexeme.quotedBody? '"' (cs.flatMap Text.stringChar ++ '"' :: rest)).map
              fun body => (Lexeme.unescape e :: body.1, body.2 + 2) := by
        rw [Lexeme.quotedBody?.eq_def]
        rfl
      rw [he, List.cons_append, List.singleton_append, hstep, ih, Option.map_some, hc]
      simp only [List.cons_append, List.nil_append, List.length_cons]
    · rw [he, List.singleton_append, quotedBody?_plain c _ hmark hback, ih, Option.map_some]
      simp only [List.singleton_append, List.length_cons]

theorem spells_quote (cs rest : List Char) :
    Spells .string cs ('"' :: cs.flatMap Text.stringChar ++ ['"']) rest := by
  refine ⟨'"', cs.flatMap Text.stringChar ++ ['"'], rfl, by decide, by decide, ?_⟩
  have hbody := quotedBody?_flatMap cs rest
  simp only [Lexeme.read, operator?_eq_none '"' _ (.inr (.inr rfl)), List.append_assoc,
    List.singleton_append, hbody]
  simp

end Piece

end ProseGrammar
