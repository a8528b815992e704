import ProseGrammar.Grammar.Read
import ProseGrammar.Proofs.Token.Splitting

/-!
# Layout

The layout of a text is its comments and the blanks between its tokens. Whatever the layout, of two
neighbouring tokens of a line it matters only whether they touch. A tidied text has no blanks at the
ends of its lines, no comments, and one space between tokens that do not touch; it splits into the
same tokens in other places, and of these the same ones touch.
-/

namespace ProseGrammar

namespace Text

/-! ### Tidied texts -/

/-- What stands in front of the next token of a line: the start of the line, the token before it, or
blanks behind that one. -/
inductive Margin
  | start
  | flush
  | spaced
  deriving DecidableEq

namespace Margin

/-- What stands in front of the next token when blanks follow. -/
def widened : Margin → Margin
  | start => start
  | flush | spaced => spaced

def chars : Margin → List Char
  | spaced => [' ']
  | start | flush => []

end Margin

/-- Where a character of a text stands: between tokens, in a string, behind a backslash in a string,
or in a comment. -/
inductive Spot
  | between (margin : Margin)
  | quoted (quote : Char)
  | escaped (quote : Char)
  | comment

/-- Where the characters stand that follow one of a token. -/
def Spot.behind (c : Char) : Spot :=
  if c = '"' ∨ c = '\'' then quoted c else between .flush

/-- A text from a spot on, without the blanks at the ends of lines and without comments, and with one
space for all blanks between two tokens of a line. Strings stay as they are. -/
def tidyFrom : Spot → List Char → List Char
  | _, [] => []
  | .quoted quote, c :: rest =>
    c :: tidyFrom (if c = quote then .between .flush else if c = '\\' then .escaped quote
      else .quoted quote) rest
  | .escaped quote, c :: rest => c :: tidyFrom (.quoted quote) rest
  | .comment, c :: rest =>
    if c = '\n' then c :: tidyFrom (.between .start) rest else tidyFrom .comment rest
  | .between margin, c :: rest =>
    if isGap c then tidyFrom (.between margin.widened) rest
    else if c = '#' then tidyFrom .comment rest
    else if c = '\n' then c :: tidyFrom (.between .start) rest
    else margin.chars ++ c :: tidyFrom (.behind c) rest

def tidied (text : String) : String :=
  String.ofList (tidyFrom (.between .start) text.toList)

/-! ### Runs of characters -/

theorem tidyFrom_gap (margin : Margin) (c : Char) (rest : List Char) (h : isGap c = true) :
    tidyFrom (.between margin) (c :: rest) = tidyFrom (.between margin.widened) rest := by
  rw [tidyFrom, if_pos h]

theorem tidyFrom_token (margin : Margin) (c : Char) (rest : List Char) (hgap : isGap c = false)
    (hhash : c ≠ '#') (hbreak : c ≠ '\n') :
    tidyFrom (.between margin) (c :: rest) = margin.chars ++ c :: tidyFrom (.behind c) rest := by
  rw [tidyFrom, if_neg (by simp [hgap]), if_neg hhash, if_neg hbreak]

/-- A comment and the end of its line are like blanks and the end of the line. -/
theorem tidyFrom_comment (margin : Margin) (body after : List Char) (hbody : ∀ c ∈ body, c ≠ '\n')
    (hafter : ∀ c ∈ after.head?, c = '\n') :
    tidyFrom .comment (body ++ after) = tidyFrom (.between margin) after := by
  induction body with
  | nil =>
    cases after with
    | nil => rfl
    | cons c after =>
      obtain rfl := hafter c rfl
      rfl
  | cons c body ih =>
    rw [List.cons_append, tidyFrom, if_neg (hbody c List.mem_cons_self)]
    exact ih fun d hd => hbody d (List.mem_cons_of_mem c hd)

theorem ne_break_of_comment (rest : List Char) :
    ∀ c ∈ '#' :: rest.takeWhile (· ≠ '\n'), c ≠ '\n' := by
  obtain ⟨_, _, _, hbody, _⟩ := exists_comment rest
  exact List.forall_mem_cons.mpr ⟨by decide, hbody⟩

theorem tidyFrom_hash (margin : Margin) (rest : List Char) :
    tidyFrom (.between margin) ('#' :: rest) =
      tidyFrom (.between margin.widened) (rest.drop (rest.takeWhile (· ≠ '\n')).length) := by
  obtain ⟨after, hcs, hdrop, hbody, hafter⟩ := exists_comment rest
  rw [hdrop]
  generalize rest.takeWhile (· ≠ '\n') = comment at hcs hbody
  rw [hcs]
  exact tidyFrom_comment margin.widened comment after hbody hafter

theorem tidyFrom_quoted (quote : Char) (hq : quote ≠ '\\') (body value after : List Char)
    (h : Lexeme.Decodes quote body value) :
    tidyFrom (.quoted quote) (body ++ quote :: after) =
      body ++ quote :: tidyFrom (.between .flush) after := by
  induction h with
  | nil => simp [tidyFrom]
  | plain hquote hescape _ ih => simp [tidyFrom, hquote, hescape, ih]
  | escape _ ih => simp [tidyFrom, hq.symm, ih]

/-- A string that is never closed takes up the rest of the text. -/
theorem tidyFrom_unclosed (quote : Char) (cs : List Char)
    (h : Lexeme.quotedBody? quote cs = none) : tidyFrom (.quoted quote) cs = cs := by
  fun_induction Lexeme.quotedBody? quote cs with
  | case1 => rfl
  | case2 => cases h
  | case3 hquote => simp [tidyFrom]
  | case4 e rest hquote ih => simp [tidyFrom, hquote, ih (Option.map_eq_none_iff.mp h)]
  | case5 c rest hquote hescape ih =>
    simp [tidyFrom, hquote, hescape, ih (Option.map_eq_none_iff.mp h)]

/-- Whether a character belongs to a token wherever it stands between tokens, and starts no
string. -/
def IsSolid (c : Char) : Prop :=
  isGap c = false ∧ c ≠ '#' ∧ c ≠ '\n' ∧ c ≠ '"' ∧ c ≠ '\''

theorem tidyFrom_solid (word after : List Char) (h : ∀ c ∈ word, IsSolid c) :
    tidyFrom (.between .flush) (word ++ after) = word ++ tidyFrom (.between .flush) after := by
  induction word with
  | nil => rfl
  | cons c word ih =>
    obtain ⟨hgap, hhash, hbreak, hdouble, hsingle⟩ := h c List.mem_cons_self
    have hbehind : Spot.behind c = .between .flush := if_neg (by simp [hdouble, hsingle])
    rw [List.cons_append, tidyFrom_token _ _ _ hgap hhash hbreak, hbehind,
      ih fun d hd => h d (List.mem_cons_of_mem c hd)]
    rfl

theorem isSolid_of_isNameChar (c : Char) (h : isNameChar c = true) : IsSolid c := by
  unfold IsSolid
  refine ⟨Bool.eq_false_iff.mpr fun hgap => ?_, ?_, ?_, ?_, ?_⟩
  · simp only [isGap, Bool.or_eq_true, beq_iff_eq] at hgap
    rcases hgap with (rfl | rfl) | rfl <;> exact absurd h (by decide)
  all_goals
    rintro rfl
    exact absurd h (by decide)

theorem isSolid_of_isDigit (c : Char) (h : Decimal.isDigit c = true) : IsSolid c :=
  isSolid_of_isNameChar c (by rw [isNameChar, h, Bool.or_true])

/-! ### First characters -/

theorem head_tidyFrom_comment (cs : List Char) : ∀ d ∈ (tidyFrom .comment cs).head?, d = '\n' := by
  induction cs with
  | nil => nofun
  | cons c cs ih =>
    rw [tidyFrom]
    split
    next hbreak => exact fun d hd => (Option.some.inj hd).symm.trans hbreak
    next => exact ih

theorem head_tidyFrom_spaced (cs : List Char) :
    ∀ d ∈ (tidyFrom (.between .spaced) cs).head?, d = ' ' ∨ d = '\n' := by
  induction cs with
  | nil => nofun
  | cons c cs ih =>
    rw [tidyFrom]
    split
    next => exact ih
    next =>
    split
    next => exact fun d hd => .inr (head_tidyFrom_comment cs d hd)
    next =>
    split
    next hbreak => exact fun d hd => .inr ((Option.some.inj hd).symm.trans hbreak)
    next => exact fun d hd => .inl (Option.some.inj hd).symm

/-- Behind a token, a tidied text goes on as the text does, or with a space or the end of the
line. -/
theorem head_tidyFrom_flush (cs : List Char) :
    ∀ d ∈ (tidyFrom (.between .flush) cs).head?, d ∈ cs.head? ∨ d = ' ' ∨ d = '\n' := by
  cases cs with
  | nil => nofun
  | cons c cs =>
    rw [tidyFrom]
    split
    next => exact fun d hd => .inr (head_tidyFrom_spaced cs d hd)
    next =>
    split
    next => exact fun d hd => .inr (.inr (head_tidyFrom_comment cs d hd))
    next =>
    split
    next hbreak => exact fun d hd => .inr (.inr ((Option.some.inj hd).symm.trans hbreak))
    next => exact fun d hd => .inl hd

end Text

/-! ### Lexemes -/

open Text

theorem isSolid_of_ofPair? (c d : Char) (kind : TokenKind) (h : TokenKind.ofPair? c d = some kind) :
    IsSolid d := by
  unfold TokenKind.ofPair? at h
  unfold IsSolid
  split at h <;> first | decide | cases h

theorem stopsAlike_tidyFrom (cs : List Char) :
    StopsAlike cs (tidyFrom (.between .flush) cs) := by
  have hfirst : ∀ cs : List Char, ∀ d ∈ (tidyFrom (.between .flush) cs).head?,
      d ∈ cs.head? ∨ IsApart d := by
    intro cs d hd
    refine (head_tidyFrom_flush cs d hd).imp_right ?_
    rintro (rfl | rfl) <;> decide
  refine ⟨hfirst cs, fun d tail heq => ?_⟩
  -- behind a point, which is no quote, the text is tidied as behind any other token
  rcases hfirst cs '.' (by rw [heq]; rfl) with hpoint | hpoint
  · cases cs with
    | nil => cases hpoint
    | cons c cs =>
      obtain rfl : c = '.' := Option.some.inj hpoint
      have hbehind : tidyFrom (.between .flush) cs = d :: tail := (List.cons.inj heq).2
      rcases hfirst cs d (by rw [hbehind]; rfl) with hd | hd
      · obtain ⟨more, rfl⟩ := List.head?_eq_some_iff.mp hd
        exact .inr ⟨more, rfl⟩
      · exact .inl hd
  · exact absurd hpoint (by decide)

/-- A text behind the first character of a lexeme that is no line break is tidied behind the lexeme
only. -/
theorem tidyFrom_behind (c : Char) (rest : List Char) (lexeme : Lexeme) (hbreak : c ≠ '\n')
    (h : Lexeme.Class c rest lexeme) :
    ∃ word after, rest = word ++ after ∧ lexeme.more = word.length ∧
      tidyFrom (.behind c) rest = word ++ tidyFrom (.between .flush) after := by
  have hsolid : ∀ word after, Spot.behind c = .between .flush → (∀ d ∈ word, IsSolid d) →
      tidyFrom (.behind c) (word ++ after) = word ++ tidyFrom (.between .flush) after := by
    intro word after hbehind hword
    rw [hbehind]
    exact tidyFrom_solid word after hword
  have hoperator : ∀ kind, TokenKind.ofChar? c = some kind → Spot.behind c = .between .flush := by
    intro kind hkind
    refine if_neg ?_
    rintro (rfl | rfl) <;> cases hkind
  have hletter : Text.isNameChar c = true → Spot.behind c = .between .flush := by
    intro hc
    obtain ⟨-, -, -, hdouble, hsingle⟩ := isSolid_of_isNameChar c hc
    exact if_neg (by simp [hdouble, hsingle])
  have hdigit : Decimal.isDigit c = true → Spot.behind c = .between .flush := fun hc =>
    hletter (by rw [isNameChar, hc, Bool.or_true])
  cases h with
  | lineBreak hc => exact absurd hc hbreak
  | @pair kind d tail hrest hpair =>
    obtain ⟨first, hfirst⟩ : ∃ first, TokenKind.ofChar? c = some first :=
      Option.ne_none_iff_exists'.mp fun hnone => by
        rw [ofPair?_eq_none_of_ofChar? c d hnone] at hpair
        cases hpair
    subst hrest
    refine ⟨[d], tail, rfl, rfl, hsolid [d] tail (hoperator first hfirst) fun e he => ?_⟩
    rw [List.mem_singleton.mp he]
    exact isSolid_of_ofPair? c d kind hpair
  | single hkind => exact ⟨[], rest, rfl, rfl, hsolid [] rest (hoperator _ hkind) nofun⟩
  | @quoted body value after hc hrest hbody =>
    have hback : c ≠ '\\' := by
      rcases hc with rfl | rfl <;> decide
    have hquoted : Spot.behind c = .quoted c := if_pos hc
    refine ⟨body ++ [c], after, by rw [hrest, List.append_cons], by simp, ?_⟩
    rw [hrest, hquoted, tidyFrom_quoted c hback body value after hbody, List.append_cons]
  | @whole digits after hc hrest hdigits =>
    subst hrest
    exact ⟨digits, after, rfl, rfl, hsolid digits after (hdigit hc) fun d hd =>
      isSolid_of_isDigit d (hdigits d hd)⟩
  | @fraction digits ds after d hc hrest hdigits hds =>
    subst hrest
    refine ⟨digits ++ '.' :: d :: ds, after, rfl, rfl, hsolid _ after (hdigit hc) fun e he => ?_⟩
    rcases List.mem_append.mp he with he | he
    · exact isSolid_of_isDigit e (hdigits e he)
    · rcases List.mem_cons.mp he with rfl | he
      · unfold IsSolid
        decide
      · exact isSolid_of_isDigit e (hds e he)
  | @name more after hc hrest hmore =>
    subst hrest
    have hname : isNameChar c = true := by rw [isNameChar, hc, Bool.true_or]
    exact ⟨more, after, rfl, rfl, hsolid more after (hletter hname) fun d hd =>
      isSolid_of_isNameChar d (hmore d hd)⟩

theorem read_tidied_error (c : Char) (rest : List Char) (cause : LexicalCause)
    (h : Lexeme.read c rest = .error cause) :
    Lexeme.read c (tidyFrom (.behind c) rest) = .error cause := by
  rcases read_error_cases c rest cause h with ⟨hc, hbody, -⟩ | ⟨hnone, rfl⟩
  · have hquoted : Spot.behind c = .quoted c := if_pos hc
    rw [hquoted, tidyFrom_unclosed c rest hbody, h]
  · exact read_of_startsNone c _ hnone

/-- A lexeme is read in a tidied text, behind the space that may stand before it, as in the text. -/
theorem read_tidied (margin : Margin) (c : Char) (rest : List Char) (lexeme : Lexeme)
    (hgap : isGap c = false) (hhash : c ≠ '#') (h : Lexeme.read c rest = .ok lexeme) :
    ∃ front word after next, rest = word ++ after ∧ lexeme.more = word.length ∧
      (front = margin.chars ∧ next = .flush ∨
        front = [] ∧ next = .start ∧ lexeme.kind = .newline) ∧
      tidyFrom (.between margin) (c :: rest) =
        front ++ c :: (word ++ tidyFrom (.between next) after) ∧
      Lexeme.read c (word ++ tidyFrom (.between next) after) = .ok lexeme := by
  by_cases hbreak : c = '\n'
  · subst hbreak
    cases h
    exact ⟨[], [], rest, .start, rfl, rfl, .inr ⟨rfl, rfl, rfl⟩, rfl, rfl⟩
  · obtain ⟨word, after, rfl, hmore, htidied⟩ :=
      tidyFrom_behind c rest lexeme hbreak (class_of_read c rest lexeme h)
    refine ⟨margin.chars, word, after, .flush, rfl, hmore, .inl ⟨rfl, rfl⟩, ?_,
      read_of_stopsAlike c word after _ lexeme (stopsAlike_tidyFrom after) hmore h⟩
    rw [tidyFrom_token margin c _ hgap hhash hbreak, htidied]

/-! ### Token lists -/

/-- The kinds of the tokens in a path. -/
def TokenKind.isPathPart (kind : TokenKind) : Bool :=
  kind = .dot || kind = .identifier

/-- Whether two lists have the same tokens in maybe other places, and neighbouring parts of paths
touch in both or in none. -/
inductive Token.Aligned : List Token → List Token → Prop
  | nil : Aligned [] []
  | cons {t u : Token} {ts us : List Token} (hkind : t.kind = u.kind) (hvalue : t.value = u.value)
      (hjoint : ∀ t' ∈ ts.head?, ∀ u' ∈ us.head?, t.kind.isPathPart = true →
        t'.kind.isPathPart = true → t.touches t' = u.touches u')
      (h : Aligned ts us) : Aligned (t :: ts) (u :: us)

/-- The fault as it is named apart from its place. -/
def Fault.unplaced : Fault → Fault
  | .lexical cause _ => .lexical cause ⟨1, 1⟩
  | .syntactic cause _ => .syntactic cause ⟨1, 1⟩
  | fault => fault

/-- How far from the place behind the token before it a token stands, or blanks do. -/
def Text.Margin.Apart (margin : Margin) (behind p : Position) : Prop :=
  match margin with
  | .start => True
  | .flush => p = behind
  | .spaced => p.line = behind.line ∧ behind.column < p.column

/-- Whether of two lists of tokens, which are behind two places, both start there or none does. -/
def Token.StartAlike (behind behind' : Position) (ts us : List Token) : Prop :=
  ∀ t ∈ ts.head?, ∀ u ∈ us.head?, t.kind.isPathPart = true →
    (t.position = behind ↔ u.position = behind')

theorem apart_widened (margin : Margin) (behind p q : Position) (h : margin.Apart behind p)
    (hline : q.line = p.line) (hcolumn : p.column < q.column) : margin.widened.Apart behind q := by
  cases margin with
  | start => trivial
  | flush =>
    obtain rfl : p = behind := h
    exact ⟨hline, hcolumn⟩
  | spaced =>
    obtain ⟨hl, hc⟩ : p.line = behind.line ∧ behind.column < p.column := h
    exact ⟨hline.trans hl, Nat.lt_trans hc hcolumn⟩

theorem after_line (p : Position) (cs : List Char) (h : ∀ c ∈ cs, c ≠ '\n') :
    p.after cs = ⟨p.line, p.column + cs.length⟩ := by
  induction cs generalizing p with
  | nil => rfl
  | cons c cs ih =>
    have hstep : p.after (c :: cs) = (p.step c).after cs := rfl
    rw [hstep, ih _ fun d hd => h d (List.mem_cons_of_mem c hd), Position.step,
      if_neg (h c List.mem_cons_self), List.length_cons]
    simp only [Position.mk.injEq, true_and]
    omega

theorem widened_ne_start (margin : Margin) (h : margin ≠ .start) : margin.widened ≠ .start := by
  cases margin with
  | start => exact absurd rfl h
  | flush | spaced => nofun

theorem isNameChar_of_isName (cs : List Char) (h : Text.isName cs = true) :
    ∀ c ∈ cs, Text.isNameChar c = true := by
  cases cs with
  | nil => nofun
  | cons c cs =>
    simp only [Text.isName, Bool.and_eq_true, List.all_eq_true] at h
    refine List.forall_mem_cons.mpr ⟨?_, h.2⟩
    rw [Text.isNameChar, h.1, Bool.true_or]

theorem touches_iff (t u : Token) (h : t.isSound = true) (hpart : t.kind.isPathPart = true) :
    t.touches u = true ↔ u.position = t.position.after t.value.toList := by
  have hline : ∀ c ∈ t.value.toList, c ≠ '\n' := by
    rw [Token.isSound] at h
    simp only [TokenKind.isPathPart, Bool.or_eq_true, decide_eq_true_eq] at hpart
    rcases hpart with hdot | hname
    · rw [hdot] at h
      have hvalue : t.value.toList = ['.'] := beq_iff_eq.mp h
      rw [hvalue]
      refine List.forall_mem_singleton.mpr ?_
      decide
    · rw [hname] at h
      exact fun c hc => (isSolid_of_isNameChar c (isNameChar_of_isName _ h c hc)).2.2.1
  have hlength : t.value.toList.length = t.value.length := String.length_toList
  rw [after_line _ _ hline, Token.touches, hlength]
  generalize u.position = place
  obtain ⟨line, column⟩ := place
  simp only [Bool.and_eq_true, decide_eq_true_eq, Position.mk.injEq]
  exact and_congr eq_comm Iff.rfl

/-- Tokens in front of aligned ones are aligned, if the first of these start alike behind them. -/
theorem aligned_cons (t u : Token) (ts us : List Token) (hsound : t.isSound = true)
    (hkind : t.kind = u.kind) (hvalue : t.value = u.value) (h : Token.Aligned ts us)
    (hstart : t.kind.isPathPart = true → Token.StartAlike (t.position.after t.value.toList)
      (u.position.after u.value.toList) ts us) : Token.Aligned (t :: ts) (u :: us) := by
  refine .cons hkind hvalue (fun t' ht' u' hu' hpart hpart' => ?_) h
  have husound : u.isSound = true := by rw [Token.isSound, ← hkind, ← hvalue]; exact hsound
  rw [Bool.eq_iff_iff, touches_iff t t' hsound hpart, touches_iff u u' husound (hkind ▸ hpart)]
  exact hstart hpart t' ht' u' hu' hpart'

theorem scanFrom_chars (q : Position) (margin : Margin) (cs : List Char) :
    Token.scanFrom q (margin.chars ++ cs) = Token.scanFrom (q.after margin.chars) cs := by
  cases margin with
  | start | flush => rfl
  | spaced => exact Piece.scanFrom_space q cs

theorem start_iff (margin : Margin) (behind p q : Position) (hm : margin ≠ .start)
    (h : margin.Apart behind p) : p = behind ↔ q.after margin.chars = q := by
  cases margin with
  | start => exact absurd rfl hm
  | flush =>
    obtain rfl : p = behind := h
    exact iff_of_true rfl rfl
  | spaced =>
    obtain ⟨-, hcolumn⟩ : p.line = behind.line ∧ behind.column < p.column := h
    refine iff_of_false (fun heq => ?_) fun heq => ?_
    · exact absurd (heq ▸ hcolumn) (Nat.lt_irrefl _)
    · have hstep : (q.step ' ').column = q.column := congrArg Position.column heq
      exact absurd hstep (Nat.succ_ne_self _)

theorem value_of_isPathPart (c : Char) (word after : List Char) (lexeme : Lexeme)
    (hread : Lexeme.read c (word ++ after) = .ok lexeme) (hmore : lexeme.more = word.length)
    (hpart : lexeme.kind.isPathPart = true) : lexeme.value = c :: word := by
  have hs : lexeme.kind ≠ .string := by
    intro hs
    rw [hs] at hpart
    cases hpart
  have hspelt := speltAs_of_read c _ lexeme ⟨1, 1⟩ hread
  rw [Token.SpeltAs, if_neg hs, String.toList_ofList, hmore, List.take_left] at hspelt
  exact hspelt.2.1.symm

/-- A text and the tidied one split into aligned tokens, whatever the places they start from. -/
theorem scanFrom_tidied (p : Position) (cs : List Char) (q behind : Position) (margin : Margin)
    (hapart : margin.Apart behind p) :
    Paired (fun ts us => Token.Aligned ts us ∧ (margin ≠ .start → Token.StartAlike behind q ts us))
      (fun f g => f.unplaced = g.unplaced) (Token.scanFrom p cs)
      (Token.scanFrom q (tidyFrom (.between margin) cs)) := by
  fun_induction Token.scanFrom p cs generalizing q behind margin with
  | case1 p =>
    rw [tidyFrom, Token.scanFrom]
    refine .ok ⟨.cons rfl rfl (fun t' ht' => absurd ht' (Option.not_mem_none t')) .nil,
      fun _ t ht _ _ hpart => ?_⟩
    obtain rfl := Option.some.inj ht
    cases hpart
  | case2 p c rest hgap ih =>
    have hstep : p.step c = ⟨p.line, p.column + 1⟩ := by
      refine if_neg ?_
      rintro rfl
      cases hgap
    rw [tidyFrom_gap margin c rest hgap]
    refine paired_mono (ih q behind margin.widened ?_) fun ts us h =>
      ⟨h.1, fun hm => h.2 (widened_ne_start margin hm)⟩
    rw [hstep]
    exact apart_widened margin behind p _ hapart rfl (Nat.lt_succ_self _)
  | case3 p rest comment hgap ih =>
    have hline : ∀ c ∈ '#' :: comment, c ≠ '\n' := ne_break_of_comment rest
    have htidied : tidyFrom (.between margin) ('#' :: rest) =
        tidyFrom (.between margin.widened) (rest.drop comment.length) := tidyFrom_hash margin rest
    rw [htidied]
    refine paired_mono (ih q behind margin.widened ?_) fun ts us h =>
      ⟨h.1, fun hm => h.2 (widened_ne_start margin hm)⟩
    rw [after_line _ _ hline]
    exact apart_widened margin behind p _ hapart rfl (Nat.lt_add_of_pos_right (Nat.succ_pos _))
  | case4 p c rest hgap hhash cause hread =>
    have hgap : isGap c = false := Bool.eq_false_iff.mpr hgap
    have hbreak : c ≠ '\n' := by
      rintro rfl
      cases hread
    rw [tidyFrom_token margin c rest hgap hhash hbreak, scanFrom_chars q margin _,
      Token.scanFrom]
    simp only [hgap, Bool.false_eq_true, if_false, if_neg hhash, read_tidied_error c rest cause hread]
    exact .error rfl
  | case5 p c rest hgap hhash lexeme hread taken ih =>
    have hgap : isGap c = false := Bool.eq_false_iff.mpr hgap
    obtain ⟨front, word, after, next, rfl, hmore, hnext, htidied, htread⟩ :=
      read_tidied margin c rest lexeme hgap hhash hread
    have htaken : taken = c :: word := by
      simp only [taken, hmore, List.take_left]
    have hsound := allows_of_read c _ lexeme hread
    have hfront : Token.scanFrom q (front ++ c :: (word ++ tidyFrom (.between next) after)) =
        Token.scanFrom (q.after front) (c :: (word ++ tidyFrom (.between next) after)) := by
      rcases hnext with ⟨rfl, -⟩ | ⟨rfl, -⟩
      · exact scanFrom_chars q margin _
      · rfl
    rw [htidied, hfront, Token.scanFrom]
    simp only [hgap, Bool.false_eq_true, if_false, if_neg hhash, htread, hmore, List.take_left,
      List.drop_left]
    rw [htaken]
    have hapart' : next.Apart (p.after taken) (p.after taken) := by
      rcases hnext with ⟨-, rfl⟩ | ⟨-, rfl, -⟩
      · rfl
      · trivial
    have hrest := ih ((q.after front).after (c :: word)) _ next hapart'
    rw [hmore, List.drop_left, htaken] at hrest
    -- only a line break, which is no part of a path, starts a line
    have hpath : lexeme.kind.isPathPart = true → front = margin.chars ∧ next = .flush := by
      intro hpart
      rcases hnext with hnext | ⟨-, -, hkind⟩
      · exact hnext
      · rw [hkind] at hpart
        cases hpart
    refine paired_bind hrest fun ts us h => .ok ⟨?_, fun hm t ht u hu hpart => ?_⟩
    · refine aligned_cons _ _ ts us ?_ rfl rfl h.1 fun hpart => ?_
      · simpa [Token.isSound] using hsound
      · obtain ⟨-, rfl⟩ := hpath hpart
        rw [String.toList_ofList, value_of_isPathPart c word after lexeme hread hmore hpart]
        exact h.2 Margin.noConfusion
    · obtain rfl := Option.some.inj ht
      obtain rfl := Option.some.inj hu
      obtain ⟨rfl, -⟩ := hpath hpart
      exact start_iff margin behind p q hm hapart

end ProseGrammar
