import ProseGrammar.Proofs.Grammar.Written

/-!
# Source text is legible

No token of a source text runs into the characters after it. Where two tokens stand without a space
between them, the first one is a bracket, a dollar sign, a point or a quoted text, or the second one
is a closing mark, with two exceptions: a path goes on with a point after a name, and the mark of a
silent expression stands right before the expression, whose text starts with no equals sign.
-/

namespace ProseGrammar

open Piece

/-! ### Tokens next to each other -/

theorem legible_closed (kind : TokenKind) (h : isClosed kind = true) (ps : List Piece)
    (rest : List Char) : Legible (symbol kind :: ps) rest ↔ Legible ps rest :=
  ⟨fun hl => hl.2, fun hl => ⟨spells_closed kind h _, hl⟩⟩

theorem free_gap (ps : List Piece) (rest : List Char) : Free (text (gap :: ps) ++ rest) :=
  free_cons ' ' (by decide) _

theorem free_closing (kind : TokenKind)
    (h : kind = .rightBracket ∨ kind = .rightParen ∨ kind = .semicolon ∨ kind = .newline)
    (ps : List Piece) (rest : List Char) : Free (text (symbol kind :: ps) ++ rest) := by
  rcases h with rfl | rfl | rfl | rfl
  · exact free_cons ']' (by decide) _
  · exact free_cons ')' (by decide) _
  · exact free_cons ';' (by decide) _
  · exact free_cons '\n' (by decide) _

theorem legible_spaced (kind : TokenKind) (h : isSymbol kind = true) (ps : List Piece)
    (rest : List Char) : Legible (spaced kind ++ ps) rest ↔ Legible ps rest :=
  ⟨fun hl => hl.2, fun hl => ⟨spells_symbol kind h _ (apart_of_free _ (free_gap ps rest)), hl⟩⟩

/-- A list of pieces is legible before everything that a token may stand before. -/
def Settled (ps : List Piece) : Prop :=
  ∀ rest, Free rest → Legible ps rest

theorem settled_append (ps qs : List Piece) (hp : Settled ps) (hq : Settled qs)
    (hf : ∀ rest, Free (text qs ++ rest)) : Settled (ps ++ qs) := fun rest hr =>
  (legible_append ps qs rest).mpr ⟨hp _ (hf rest), hq rest hr⟩

theorem settled_closed (kind : TokenKind) (h : isClosed kind = true) (ps : List Piece)
    (hp : Settled ps) : Settled (symbol kind :: ps) := fun rest hr =>
  (legible_closed kind h ps rest).mpr (hp rest hr)

theorem settled_spaced (kind : TokenKind) (h : isSymbol kind = true) (ps : List Piece)
    (hp : Settled ps) : Settled (spaced kind ++ ps) := fun rest hr =>
  (legible_spaced kind h ps rest).mpr (hp rest hr)

theorem settled_close (kind : TokenKind)
    (h : kind = .rightBracket ∨ kind = .rightParen) (ps : List Piece) (hp : Settled ps) :
    Settled (ps ++ [symbol kind]) := by
  refine settled_append ps _ hp (settled_closed kind ?_ [] fun _ _ => trivial) fun rest => ?_
  · rcases h with rfl | rfl <;> rfl
  · exact free_closing kind (h.imp_right .inl) [] rest

theorem settled_inBrackets (needed : Bool) (ps : List Piece) (hp : Settled ps) :
    Settled (inBrackets needed ps) := by
  cases needed with
  | false => exact hp
  | true => exact settled_closed .leftBracket rfl _ (settled_close .rightBracket (.inl rfl) ps hp)

theorem settled_joined (separator : List Piece) (pss : List (List Piece))
    (hs : ∀ ps, Settled ps → Settled (separator ++ ps))
    (hf : ∀ rest, Free (text separator ++ rest)) (h : ∀ ps ∈ pss, Settled ps) :
    Settled (joined separator pss) := by
  induction pss with
  | nil => exact fun _ _ => trivial
  | cons ps pss ih =>
    have hps : Settled ps := h ps List.mem_cons_self
    cases pss with
    | nil => exact hps
    | cons qs pss =>
      have hrest := ih fun rs hrs => h rs (List.mem_cons_of_mem ps hrs)
      refine settled_append ps _ hps (hs _ hrest) fun rest => ?_
      rw [text_append, List.append_assoc]
      exact hf _

/-! ### Names, literals and references -/

theorem settled_name (cs : List Char) (h : Text.isName cs = true) : Settled [name cs] :=
  fun rest hr => ⟨spells_name cs h _ (isNameChar_of_free rest hr), trivial⟩

theorem settled_word (cs : List Char) (h : Text.isName cs = true ∨ Text.isPlainNumeral cs = true) :
    Settled [word cs] := by
  intro rest hr
  unfold word
  split
  next hn => exact settled_name cs hn rest hr
  next hn => exact ⟨spells_numeral cs (h.resolve_left hn) _ hr, trivial⟩

theorem settled_punctuation (s : String) : Settled [punctuation s] := by
  intro rest hr
  have ha := apart_of_free rest hr
  unfold punctuation
  split
  · exact ⟨spells_symbol _ rfl _ ha, trivial⟩
  split
  · exact ⟨spells_symbol _ rfl _ ha, trivial⟩
  split
  · exact ⟨spells_symbol _ rfl _ ha, trivial⟩
  · exact ⟨spells_symbol _ rfl _ ha, trivial⟩

theorem settled_literal (s : String) (inText : Bool) : Settled [literal s inText] := by
  unfold literal
  split
  next h => exact settled_word s.toList (by simpa [Text.isBareWord] using h)
  split
  · exact settled_punctuation s
  · exact fun rest _ => ⟨spells_quote s.toList _, trivial⟩

theorem apart_of_isPlainNumeral (cs rest : List Char) (h : Text.isPlainNumeral cs = true) :
    Apart (cs ++ rest) := by
  have hdigit : ∀ c ds, (∀ d ∈ c :: ds, Decimal.isDigit d = true) → ∀ more, Apart (c :: more) := by
    intro c ds hds more d hd
    obtain rfl : c = d := by simpa using hd
    constructor <;>
    · rintro rfl
      exact absurd (hds _ List.mem_cons_self) (by decide)
  obtain ⟨c, ds, hds, rfl | ⟨e, es, -, rfl⟩⟩ := isPlainNumeral_cases cs h
  · exact hdigit c ds hds _
  · exact hdigit c ds hds _

theorem settled_signed (cs : List Char)
    (h : Text.isPlainNumeral cs = true ∨ ∃ ds, cs = '-' :: ds ∧ Text.isPlainNumeral ds = true) :
    Settled (signed cs) := by
  unfold signed
  split
  next digits =>
    rcases h with h | ⟨ds, hds, h⟩
    · obtain ⟨c, ds, hds, hcs⟩ := isPlainNumeral_cases _ h
      have hc : c = '-' := by
        rcases hcs with hcs | ⟨e, es, -, hcs⟩ <;> exact (List.cons.inj hcs).1.symm
      exact absurd (hds c List.mem_cons_self) (by rw [hc]; decide)
    · obtain rfl : digits = ds := (List.cons.inj hds).2
      intro rest hr
      have hword := settled_word digits (.inr h)
      refine ⟨spells_symbol .minus rfl _ ?_, hword rest hr⟩
      rw [text_cons, text_word, List.append_assoc]
      exact apart_of_isPlainNumeral digits _ h
  next hno =>
    rcases h with h | ⟨ds, hds, -⟩
    · exact settled_word cs (.inr h)
    · exact absurd hds (hno ds)

theorem isPlainNumeral_of_ofPlainNumeral? (cs : List Char) (n : Number)
    (h : Number.ofPlainNumeral? cs = some n) : Text.isPlainNumeral cs = true := by
  unfold Number.ofPlainNumeral? at h
  split at h
  next hn => exact hn
  next => cases h

theorem isPlainNumeral_of_ofSource? (cs : List Char) (n : Number)
    (h : Number.ofSource? cs = some n) :
    Text.isPlainNumeral cs = true ∨ ∃ ds, cs = '-' :: ds ∧ Text.isPlainNumeral ds = true := by
  unfold Number.ofSource? at h
  split at h
  next digits =>
    obtain ⟨m, hm, -⟩ := Option.map_eq_some_iff.mp h
    exact .inr ⟨digits, rfl, isPlainNumeral_of_ofPlainNumeral? digits m hm⟩
  next => exact .inl (isPlainNumeral_of_ofPlainNumeral? cs n h)

theorem display_of_number_readsBack (n : Number) (h : (Value.number n).readsBack = true) :
    ∃ s, n.display = .ok s ∧ Number.ofSource? s.toList = some n := by
  simp only [Value.readsBack] at h
  split at h
  next s hs => exact ⟨s, hs, by simpa using h⟩
  next => cases h

theorem settled_value (v : Value) (inText : Bool) (hv : v.readsBack = true) :
    Settled (v.pieces inText) := by
  cases v with
  | text s => exact settled_literal s inText
  | number n =>
    obtain ⟨s, hs, hsource⟩ := display_of_number_readsBack n hv
    rw [pieces_number n inText s hs]
    exact settled_signed s.toList (isPlainNumeral_of_ofSource? s.toList n hsource)
  | _ => cases hv

theorem settled_segments (segments : List String)
    (h : ∀ s ∈ segments, Text.isName s.toList = true) (first : List Char)
    (hf : Text.isName first = true) : Settled (name first :: segmentPieces segments) := by
  induction segments generalizing first with
  | nil => exact settled_name first hf
  | cons s segments ih =>
    have hrest := ih (fun t ht => h t (List.mem_cons_of_mem s ht)) s.toList (h s List.mem_cons_self)
    intro rest hr
    refine ⟨spells_name first hf _ ?_, ⟨spells_closed .dot rfl _, hrest rest hr⟩⟩
    intro c hc
    have hdot : some '.' = some c := hc
    obtain rfl : '.' = c := Option.some.inj hdot
    decide

theorem settled_reference (r : Reference) (h : r.isPath = true) : Settled r.pieces := by
  obtain ⟨path, isKnowledge⟩ := r
  cases path with
  | nil => cases h
  | cons first segments =>
    simp only [Reference.isPath, List.all_cons, Bool.and_eq_true, List.all_eq_true] at h
    have hpath := settled_segments segments h.2.2 first.toList h.2.1
    cases isKnowledge with
    | false => exact settled_closed .dollar rfl _ hpath
    | true =>
      exact settled_closed .dollar rfl _ (settled_closed .dollar rfl _
        (settled_closed .dot rfl _ hpath))

/-! ### The start of an expression -/

/-- The kinds of tokens that expressions start with. -/
def TokenKind.opens : TokenKind → Bool
  | number | minus | string | identifier | dollar | leftParen | leftBracket => true
  | _ => false

theorem ne_endOfText_of_opens {kind : TokenKind} (h : kind.opens = true) : kind ≠ .endOfText := by
  rintro rfl
  cases h

theorem opens_append (ps qs : List Piece) (h : (kindAt ps 0).opens = true) :
    (kindAt (ps ++ qs) 0).opens = true := by
  rw [kindAt_append ps qs (ne_endOfText_of_opens h)]
  exact h

theorem opens_word (cs : List Char) : (kindAt [word cs] 0).opens = true := by
  unfold word
  split <;> rfl

theorem opens_value (v : Value) (hv : v.readsBack = true) :
    (kindAt (v.pieces false) 0).opens = true := by
  cases v with
  | text s =>
    show (kindAt [literal s false] 0).opens = true
    unfold literal
    split
    · exact opens_word s.toList
    · rfl
  | number n =>
    obtain ⟨s, hs, -⟩ := display_of_number_readsBack n hv
    simp only [Value.pieces, Value.display, hs]
    unfold signed
    split
    · rfl
    · exact opens_word s.toList
  | _ => cases hv

theorem opens_reference (r : Reference) : (kindAt r.pieces 0).opens = true := by
  unfold Reference.pieces
  split <;> rfl

theorem opens_inBrackets (needed : Bool) (ps : List Piece) (h : (kindAt ps 0).opens = true) :
    (kindAt (inBrackets needed ps) 0).opens = true := by
  cases needed with
  | false => exact h
  | true => rfl

theorem joined_cons (separator ps : List Piece) (pss : List (List Piece)) :
    ∃ more, joined separator (ps :: pss) = ps ++ more := by
  cases pss with
  | nil => exact ⟨[], by simp [joined]⟩
  | cons qs pss => exact ⟨_, rfl⟩

mutual

theorem opens_pieces (n : Node) (place : Place) (hplace : place.holdsProse = false)
    (hf : n.fits place = true) (hp : n.plain = true) : (kindAt n.pieces 0).opens = true := by
  cases n with
  | literal v => exact opens_value v hp
  | rule x => rfl
  | reference target => exact opens_reference target
  | assign target op expression =>
    rw [Node.pieces, List.append_assoc]
    exact opens_append _ _ (opens_reference target)
  | binary left op right => rfl
  | conditional condition whenTrue whenFalse =>
    simp only [Node.fits, Node.plain, Bool.and_eq_true] at hf hp
    have hc := opens_pieces condition .expression rfl hf.1.1 hp.1.1
    rw [Node.pieces, List.append_assoc, List.append_assoc]
    exact opens_append _ _ (opens_inBrackets _ _ hc)
  | silent expression => rfl
  | group members prose =>
    simp only [Node.fits, Node.plain, Bool.and_eq_true, hplace, Bool.or_false,
      Bool.not_eq_true', decide_eq_true_eq] at hf hp
    obtain ⟨⟨rfl, hlength⟩, hfit⟩ := hf
    exact opens_members members (by rintro rfl; simp at hlength) hfit hp.1
  | alternative a => cases hf
  | definition r => cases hf
  | missing => cases place <;> first | exact absurd hf (by decide) | exact absurd hplace (by decide)

theorem opens_members (members : List Node) (hne : members ≠ []) (hf : fitAll members = true)
    (hp : plainAll members = true) :
    (kindAt (joined [symbol .semicolon, gap] (memberPieces members)) 0).opens = true := by
  cases members with
  | nil => exact absurd rfl hne
  | cons n rest =>
    simp only [fitAll, plainAll, Bool.and_eq_true] at hf hp
    have hn := opens_pieces n .expression rfl hf.1 hp.1
    obtain ⟨more, hmore⟩ := joined_cons [symbol .semicolon, gap]
      (inBrackets n.isList n.pieces) (memberPieces rest)
    rw [memberPieces, hmore]
    exact opens_append _ _ (opens_inBrackets _ _ hn)

end

theorem pair?_not_opens (c : Char) (rest : List Char) (lexeme : Lexeme)
    (h : Lexeme.pair? c rest = some lexeme) : lexeme.kind.opens = false := by
  cases rest with
  | nil => cases h
  | cons d rest =>
    obtain ⟨kind, hkind, rfl⟩ := Option.map_eq_some_iff.mp h
    show kind.opens = false
    unfold TokenKind.ofPair? at hkind
    split at hkind <;> cases hkind <;> rfl

theorem read_not_opens (c : Char) (rest : List Char) (lexeme : Lexeme) (hc : c = '=' ∨ c = ':')
    (h : Lexeme.read c rest = .ok lexeme) : lexeme.kind.opens = false := by
  have hoperator : ∃ found, Lexeme.operator? c rest = some found ∧ found.kind.opens = false := by
    rw [Lexeme.operator?]
    cases hp : Lexeme.pair? c rest with
    | some found => exact ⟨found, rfl, pair?_not_opens c rest found hp⟩
    | none => rcases hc with rfl | rfl <;> exact ⟨_, rfl, rfl⟩
  obtain ⟨found, hfound, hopens⟩ := hoperator
  have hbreak : c ≠ '\n' := by
    rintro rfl
    exact absurd hc (by decide)
  rw [Lexeme.read, if_neg hbreak, hfound] at h
  cases h
  exact hopens

/-- What opens an expression does not make an operator of a mark before it. -/
theorem apart_of_opens (ps : List Piece) (rest : List Char) (hl : Legible ps rest)
    (h : (kindAt ps 0).opens = true) : Apart (text ps ++ rest) := by
  cases ps with
  | nil => cases h
  | cons q ps =>
    cases q with
    | gap => exact apart_of_free _ (free_gap ps rest)
    | token kind value cs =>
      obtain ⟨⟨c, more, rfl, -, -, hread⟩, -⟩ := hl
      intro d hd
      have hhead : some c = some d := hd
      obtain rfl : c = d := Option.some.inj hhead
      have hnot : ¬(c = '=' ∨ c = ':') := by
        intro hc
        have hopens := read_not_opens c _ _ hc hread
        rw [show kind.opens = true from h] at hopens
        cases hopens
      exact ⟨fun hc => hnot (.inl hc), fun hc => hnot (.inr hc)⟩

/-! ### Nodes -/

theorem isSymbol_assignOp (op : AssignOp) : isSymbol op.kind = true := by
  cases op <;> rfl

theorem isSymbol_binaryOp (op : BinaryOp) : isSymbol op.kind = true := by
  cases op <;> rfl

theorem settled_nil : Settled [] := fun _ _ => trivial

theorem settled_elementPieces (n : Node) (hv : ∀ v, n = .literal v → v.readsBack = true)
    (h : Settled n.pieces) : Settled (n.elementPieces n.pieces) := by
  cases n with
  | literal v => exact settled_value v true (hv v rfl)
  | _ => exact settled_inBrackets _ _ h

mutual

/-- The text of a node that fits and is plain is legible. -/
theorem settled_pieces (n : Node) (place : Place) (hf : n.fits place = true)
    (hp : n.plain = true) : Settled n.pieces := by
  cases n with
  | literal v => exact settled_value v false hp
  | rule x => exact settled_closed .dollar rfl _ (settled_name x.toList hf)
  | reference target => exact settled_reference target hf
  | assign target op expression =>
    simp only [Node.fits, Bool.and_eq_true] at hf
    have he := settled_pieces expression .expression hf.2 hp
    rw [Node.pieces, List.append_assoc]
    refine settled_append _ _ (settled_reference target hf.1.1) ?_ fun rest => free_gap _ rest
    exact settled_spaced _ (isSymbol_assignOp op) _ (settled_inBrackets _ _ he)
  | binary left op right =>
    simp only [Node.fits, Node.plain, Bool.and_eq_true] at hf hp
    have hl := settled_inBrackets left.isLooseOperand _
      (settled_pieces left .operand hf.1.1 hp.1)
    have hr := settled_inBrackets right.isLooseOperand _
      (settled_pieces right .operand hf.2 hp.2)
    have hboth : Settled (inBrackets left.isLooseOperand left.pieces ++
        (spaced op.kind ++ inBrackets right.isLooseOperand right.pieces)) :=
      settled_append _ _ hl (settled_spaced _ (isSymbol_binaryOp op) _ hr)
        fun rest => free_gap _ rest
    have hclosed := settled_closed .leftParen rfl _
      (settled_close .rightParen (.inr rfl) _ hboth)
    simpa only [Node.pieces, List.cons_append, List.append_assoc] using hclosed
  | conditional condition whenTrue whenFalse =>
    simp only [Node.fits, Node.plain, Bool.and_eq_true] at hf hp
    have hc := settled_inBrackets condition.isLoose _
      (settled_pieces condition .expression hf.1.1 hp.1.1)
    have ht := settled_inBrackets (whenTrue.isConditional || whenTrue.isList) _
      (settled_pieces whenTrue .branch hf.1.2 hp.1.2)
    have hfalse := settled_inBrackets whenFalse.isList _
      (settled_pieces whenFalse .otherwise hf.2 hp.2)
    have hhead := settled_append _ _ hc (settled_spaced .question rfl _ ht)
      fun rest => free_gap _ rest
    rw [Node.pieces, List.append_assoc (inBrackets _ condition.pieces)]
    cases whenFalse.isMissing with
    | true => simpa using hhead
    | false =>
      exact settled_append _ _ hhead (settled_spaced .pipe rfl _ hfalse) fun rest => free_gap _ rest
  | silent expression =>
    have he := settled_pieces expression .expression hf hp
    have hopens := opens_pieces expression .expression rfl hf hp
    have hclose := settled_close .rightBracket (.inl rfl) _ he
    refine settled_closed .leftBracket rfl _ fun rest hr => ⟨?_, hclose rest hr⟩
    exact spells_symbol .bang rfl _ (apart_of_opens _ rest (hclose rest hr) (opens_append _ _ hopens))
  | group members prose =>
    simp only [Node.fits, Node.plain, Bool.and_eq_true] at hf hp
    cases prose with
    | true =>
      exact settled_joined [gap] _ (fun ps h => h) (fun rest => free_gap [] rest)
        (settled_parts members hf.2 hp.1)
    | false =>
      exact settled_joined [symbol .semicolon, gap] _
        (fun ps h => settled_closed .semicolon rfl (gap :: ps) h)
        (fun rest => free_closing .semicolon (by simp) [gap] rest)
        (settled_members members hf.2 hp.1)
  | alternative a => cases hf
  | definition r => cases hf
  | missing => exact settled_nil

theorem settled_parts (members : List Node) (hf : fitAll members = true)
    (hp : plainAll members = true) : ∀ ps ∈ partPieces members, Settled ps := by
  cases members with
  | nil => exact fun ps h => nomatch h
  | cons n rest =>
    simp only [fitAll, plainAll, Bool.and_eq_true] at hf hp
    have hn := settled_pieces n .expression hf.1 hp.1
    have hrest := settled_parts rest hf.2 hp.2
    intro ps hps
    rcases List.mem_cons.mp hps with rfl | hps
    · refine settled_elementPieces n (fun v hv => ?_) hn
      subst hv
      exact hp.1
    · exact hrest ps hps

theorem settled_members (members : List Node) (hf : fitAll members = true)
    (hp : plainAll members = true) : ∀ ps ∈ memberPieces members, Settled ps := by
  cases members with
  | nil => exact fun ps h => nomatch h
  | cons n rest =>
    simp only [fitAll, plainAll, Bool.and_eq_true] at hf hp
    have hn := settled_pieces n .expression hf.1 hp.1
    have hrest := settled_members rest hf.2 hp.2
    intro ps hps
    rcases List.mem_cons.mp hps with rfl | hps
    · exact settled_inBrackets _ _ hn
    · exact hrest ps hps

end

/-! ### Alternatives, rules and grammars -/

theorem signed_of_word (cs : List Char)
    (h : Text.isName cs = true ∨ Text.isPlainNumeral cs = true) : signed cs = [word cs] := by
  unfold signed
  split
  next digits =>
    rcases h with h | h
    · exact absurd h (by simp [Text.isName, Text.isNameStart])
    · exact absurd h (by simp [Text.isPlainNumeral, Decimal.isDigit])
  next => rfl

theorem elementPieces_number (n : Number) (h : (Node.literal (.number n)).plainElement = true) :
    ∃ s, n.display = .ok s ∧
      (Text.isName s.toList = true ∨ Text.isPlainNumeral s.toList = true) ∧
      (Node.literal (.number n)).elementPieces (Node.literal (.number n)).pieces =
        [word s.toList] := by
  simp only [Node.plainElement] at h
  split at h
  next s hs =>
    have hw : Text.isName s.toList = true ∨ Text.isPlainNumeral s.toList = true := by
      simpa [Text.isBareWord] using h
    refine ⟨s, hs, hw, ?_⟩
    exact (pieces_number n true s hs).trans <| signed_of_word s.toList hw
  next => cases h

theorem settled_textPieces (n : Node) (hf : n.fits .expression = true)
    (hp : n.plainElement = true) : Settled n.textPieces := by
  unfold Node.textPieces
  split
  · exact settled_closed .newline rfl [] settled_nil
  · rcases plain_of_plainElement n hp with ⟨v, rfl⟩ | hplain
    · cases v with
      | text s => exact settled_literal s true
      | number m =>
        obtain ⟨s, -, hw, hpieces⟩ := elementPieces_number m hp
        rw [hpieces]
        exact settled_word s.toList hw
      | _ => cases hf
    · refine settled_elementPieces n (fun v hv => ?_) (settled_pieces n .expression hf hplain)
      subst hv
      exact hplain

theorem weight_cases (v : Value) (h : v.weightReadsBack = true) :
    ∃ w, v = .float w ∧ ((v.equal (.float 1) = true ∧ v.weightPieces = []) ∨
      ∃ (s : String) (n : Numeral), Text.isPlainNumeral s.toList = true ∧
        Numeral.ofChars? s.toList = some n ∧ n.toFloat = w ∧
          v.weightPieces = [gap, symbol .doubleColon, numeral s.toList]) := by
  unfold Value.weightReadsBack at h
  split at h
  next w =>
    refine ⟨w, rfl, ?_⟩
    show (Value.float w).equal (.float 1) = true ∧ (Value.float w).weightPieces = [] ∨ _
    unfold Value.weightPieces
    cases hone : (Value.float w).equal (.float 1) with
    | true => exact .inl ⟨rfl, by simp⟩
    | false =>
      rw [hone, Bool.false_or] at h
      split at h
      next s hs =>
        simp only [Bool.and_eq_true, decide_eq_true_eq] at h
        obtain ⟨n, hn, hw⟩ := Option.map_eq_some_iff.mp h.2
        refine .inr ⟨s, n, h.1, hn, hw, ?_⟩
        have hwritten : (Value.number (.float w)).equal (.float 1) = false := hone
        have hdisplay : (Value.number (.float w)).display = .ok s := hs
        rw [hwritten, if_neg Bool.false_ne_true, hdisplay]
      next => cases h
  next => cases h

theorem settled_weightPieces (v : Value) (h : v.weightReadsBack = true) :
    Settled v.weightPieces := by
  obtain ⟨w, -, ⟨-, hpieces⟩ | ⟨s, n, hs, -, -, hpieces⟩⟩ := weight_cases v h
  · rw [hpieces]
    exact settled_nil
  · rw [hpieces]
    exact fun rest hr => ⟨spells_closed .doubleColon rfl _, spells_numeral s.toList hs _ hr, trivial⟩

theorem settled_alternative (a : Alternative) (hf : a.fits = true) (hp : a.plain = true) :
    Settled a.pieces := by
  obtain ⟨elements, weight⟩ := a
  simp only [Alternative.fits, Alternative.plain, Bool.and_eq_true, List.all_eq_true] at hf hp
  have helements : Settled (joined [gap] (elements.map Node.textPieces)) := by
    refine settled_joined [gap] _ (fun ps h => h) (fun rest => free_gap [] rest) fun ps hps => ?_
    obtain ⟨n, hn, rfl⟩ := List.mem_map.mp hps
    exact settled_textPieces n (fits_of_mem elements hf.1.1.1.1 n hn) (hp.1 n hn)
  obtain ⟨w, -, ⟨-, hpieces⟩ | ⟨s, n, -, -, -, hpieces⟩⟩ := weight_cases weight hp.2
  · rw [Alternative.pieces, hpieces, List.append_nil]
    exact helements
  · refine settled_append _ _ helements (settled_weightPieces weight hp.2) fun rest => ?_
    rw [hpieces]
    exact free_gap _ rest

theorem settled_rule (r : Rule) (hf : r.fits = true)
    (hp : r.alternatives.all Alternative.plain = true) : Settled r.pieces := by
  simp only [Rule.fits, Bool.and_eq_true, List.all_eq_true] at hf hp
  refine settled_joined (spaced .pipe) _ (fun ps h => settled_spaced .pipe rfl ps h)
    (fun rest => free_gap _ rest) fun ps hps => ?_
  obtain ⟨a, ha, rfl⟩ := List.mem_map.mp hps
  exact settled_alternative a (hf.2 a ha) (hp a ha)

/-- The text of a grammar that fits and is plain is legible. -/
theorem legible_grammar (g : Grammar) (hf : g.fits = true) (hp : g.plain = true) :
    Legible g.pieces [] := by
  simp only [Grammar.fits, Grammar.plain, Bool.and_eq_true, List.all_eq_true] at hf hp
  refine settled_joined [symbol .newline] _ (fun ps h => settled_closed .newline rfl ps h)
    (fun rest => free_closing .newline (by simp) [] rest) (fun ps hps => ?_) [] free_nil
  obtain ⟨entry, hentry, rfl⟩ := List.mem_map.mp hps
  obtain ⟨⟨hname, -⟩, hrule⟩ := hf.2 entry hentry
  have hr := settled_rule entry.2 hrule (List.all_eq_true.mpr (hp entry hentry))
  refine settled_closed .dollar rfl _ ?_
  exact settled_append [name entry.1.toList] _ (settled_name _ hname)
    (settled_spaced .define rfl _ hr) fun rest => free_gap _ rest

end ProseGrammar
