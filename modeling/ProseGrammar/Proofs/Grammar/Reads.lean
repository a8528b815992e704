import ProseGrammar.Grammar.Read
import ProseGrammar.Proofs.Token.Pieces

/-!
# Reading pieces

A cursor stands before a list of pieces when the tokens still to be read are theirs. A parser reads
a piece of text when it gets from before the text to behind it, whatever the place of the text and
whatever was read before. Texts are read one after the other, so the parsers that are built from
others need no cursors in their proofs.
-/

namespace ProseGrammar

variable {α β : Type}

/-! ### Looking ahead -/

namespace Piece

def kinds : List Piece → List TokenKind
  | [] => []
  | gap :: ps => kinds ps
  | token kind _ _ :: ps => kind :: kinds ps

/-- The kind of the token with a number, the end of the text after the last one. -/
def kindAt (ps : List Piece) (i : Nat) : TokenKind :=
  (kinds ps)[i]?.getD .endOfText

theorem kinds_append (ps qs : List Piece) : kinds (ps ++ qs) = kinds ps ++ kinds qs := by
  induction ps with
  | nil => rfl
  | cons q ps ih => cases q <;> simp [kinds, ih]

@[simp] theorem kindAt_nil (i : Nat) : kindAt [] i = .endOfText := rfl

@[simp] theorem kindAt_gap (ps : List Piece) (i : Nat) : kindAt (gap :: ps) i = kindAt ps i := rfl

@[simp] theorem kindAt_token_zero (kind : TokenKind) (value cs : List Char) (ps : List Piece) :
    kindAt (token kind value cs :: ps) 0 = kind := rfl

@[simp] theorem kindAt_token_succ (kind : TokenKind) (value cs : List Char) (ps : List Piece)
    (i : Nat) : kindAt (token kind value cs :: ps) (i + 1) = kindAt ps i := rfl

theorem kindAt_append (ps qs : List Piece) (h : kindAt ps 0 ≠ .endOfText) :
    kindAt (ps ++ qs) 0 = kindAt ps 0 := by
  rw [kindAt, kinds_append, kindAt, List.getElem?_append]
  cases hps : kinds ps with
  | nil => exact absurd (by simp [kindAt, hps]) h
  | cons kind more => rfl

theorem map_kind_tokens (p : Position) (ps : List Piece) :
    (tokens p ps).map Token.kind = kinds ps ++ [.endOfText] := by
  induction ps generalizing p with
  | nil => rfl
  | cons q ps ih => cases q <;> simp [tokens, kinds, ih]

end Piece

open Piece

namespace Cursor

/-- The cursor stands before a list of pieces, and the text ends with them. -/
def Before (c : Cursor) (ps : List Piece) : Prop :=
  ∃ p, c.rest = tokens p ps

theorem kindAt_of_before (c : Cursor) (ps : List Piece) (h : c.Before ps) (i : Nat) :
    c.kindAt i = Piece.kindAt ps i := by
  obtain ⟨p, hp⟩ := h
  have hkind : c.kindAt i = ((c.rest.map Token.kind)[i]?).getD .endOfText := by
    rw [List.getElem?_map, kindAt]
    cases c.rest[i]? <;> rfl
  rw [hkind, hp, map_kind_tokens, Piece.kindAt, List.getElem?_append]
  split
  next => rfl
  next hi =>
    rw [List.getElem?_eq_none (by omega : (kinds ps).length ≤ i)]
    cases hj : i - (kinds ps).length <;> simp

theorem kind_of_before (c : Cursor) (ps : List Piece) (h : c.Before ps) :
    c.kind = Piece.kindAt ps 0 :=
  kindAt_of_before c ps h 0

theorem before_of_gap (c : Cursor) (ps : List Piece) (h : c.Before (gap :: ps)) : c.Before ps := by
  obtain ⟨p, hp⟩ := h
  exact ⟨p.step ' ', hp⟩

theorem skipBreaks_before (c : Cursor) (ps : List Piece) (hk : Piece.kindAt ps 0 ≠ .newline)
    (h : c.Before ps) : c.skipBreaks.Before ps := by
  have hkind : ∀ t ∈ c.rest.head?, t.kind ≠ .newline := by
    intro t ht
    rw [← c.kind_of_before ps h, kind, kindAt, ← List.head?_eq_getElem?, Option.mem_def.mp ht] at hk
    exact hk
  obtain ⟨p, hp⟩ := h
  refine ⟨p, ?_⟩
  rw [skipBreaks, ← hp]
  cases hrest : c.rest with
  | nil => rfl
  | cons t ts =>
    have ht : t.kind ≠ .newline := hkind t (by rw [hrest]; rfl)
    simp [ht]

theorem of_before_token (c : Cursor) (kind : TokenKind) (value cs : List Char) (ps : List Piece)
    (hk : kind ≠ .endOfText) (h : c.Before (token kind value cs :: ps)) :
    ∃ p, c.current = ⟨kind, String.ofList value, p⟩ ∧ c.next.rest = tokens (p.after cs) ps := by
  obtain ⟨p, hp⟩ := h
  refine ⟨p, ?_, ?_⟩
  · simp [current, hp, tokens]
  · have hkind : c.kind ≠ .endOfText := by
      rw [kind_of_before c _ ⟨p, hp⟩]
      exact hk
    simp [next, hkind, hp, tokens]

end Cursor

/-! ### Parsers before pieces -/

/-- A parser reads the pieces `ps` as `a` wherever `rest` follows them. -/
def Reads (parser : Parser α) (ps rest : List Piece) (a : α) : Prop :=
  ∀ c : Cursor, c.Before (ps ++ rest) → ∃ c' : Cursor, parser c = .ok (a, c') ∧ c'.Before rest

theorem reads_pure (a : α) (rest : List Piece) : Reads (pure a) [] rest a := fun c h =>
  ⟨c, rfl, h⟩

theorem reads_gap (parser : Parser α) (ps rest : List Piece) (a : α) (h : Reads parser ps rest a) :
    Reads parser (gap :: ps) rest a := fun c hc => h c (c.before_of_gap _ hc)

theorem reads_bind (parser : Parser α) (next : α → Parser β) (ps qs rest : List Piece) (a : α)
    (b : β) (hp : Reads parser ps (qs ++ rest) a) (hn : Reads (next a) qs rest b) :
    Reads (parser >>= next) (ps ++ qs) rest b := by
  intro c hc
  rw [List.append_assoc] at hc
  obtain ⟨c₁, h₁, hc₁⟩ := hp c hc
  obtain ⟨c₂, h₂, hc₂⟩ := hn c₁ hc₁
  refine ⟨c₂, ?_, hc₂⟩
  show (parser c >>= fun x => next x.1 x.2) = _
  rw [h₁]
  exact h₂

theorem reads_get (next : Cursor → Parser β) (ps rest : List Piece) (b : β)
    (h : ∀ c : Cursor, c.Before (ps ++ rest) → Reads (next c) ps rest b) :
    Reads (get >>= next) ps rest b := fun c hc => h c hc c hc

theorem reads_advance (next : Token → Parser β) (kind : TokenKind) (value cs : List Char)
    (ps rest : List Piece) (b : β) (hk : kind ≠ .endOfText)
    (h : ∀ p, Reads (next ⟨kind, String.ofList value, p⟩) ps rest b) :
    Reads (Parser.advance >>= next) (token kind value cs :: ps) rest b := by
  intro c hc
  obtain ⟨p, hcurrent, hrest⟩ := c.of_before_token kind value cs (ps ++ rest) hk hc
  obtain ⟨c', hp, hc'⟩ := h p c.next ⟨_, hrest⟩
  refine ⟨c', ?_, hc'⟩
  show next c.current c.next = _
  rw [hcurrent]
  exact hp

theorem reads_accept (next : Bool → Parser β) (kind : TokenKind) (value cs : List Char)
    (ps rest : List Piece) (b : β) (hk : kind ≠ .endOfText) (h : Reads (next true) ps rest b) :
    Reads (Parser.accept kind >>= next) (token kind value cs :: ps) rest b := by
  intro c hc
  have hkind : c.kind = kind := c.kind_of_before _ hc
  obtain ⟨p, -, hrest⟩ := c.of_before_token kind value cs (ps ++ rest) hk hc
  obtain ⟨c', hp, hc'⟩ := h c.next ⟨_, hrest⟩
  refine ⟨c', ?_, hc'⟩
  have haccept : Parser.accept kind c = .ok (true, c.next) := by
    show (if c.kind = kind then _ else _ : Parser Bool) c = _
    rw [if_pos hkind]
    rfl
  show (Parser.accept kind c >>= fun x => next x.1 x.2) = _
  rw [haccept]
  exact hp

theorem reads_accept_other (next : Bool → Parser β) (kind : TokenKind) (ps rest : List Piece)
    (b : β) (hk : kindAt (ps ++ rest) 0 ≠ kind) (h : Reads (next false) ps rest b) :
    Reads (Parser.accept kind >>= next) ps rest b := by
  intro c hc
  have hkind : c.kind ≠ kind := by
    rw [c.kind_of_before _ hc]
    exact hk
  obtain ⟨c', hp, hc'⟩ := h c hc
  refine ⟨c', ?_, hc'⟩
  have haccept : Parser.accept kind c = .ok (false, c) := by
    show (if c.kind = kind then _ else _ : Parser Bool) c = _
    rw [if_neg hkind]
    rfl
  show (Parser.accept kind c >>= fun x => next x.1 x.2) = _
  rw [haccept]
  exact hp

theorem expect_of_before (c : Cursor) (kind : TokenKind) (cause : SyntaxCause)
    (value cs : List Char) (ps : List Piece) (hk : kind ≠ .endOfText)
    (hc : c.Before (token kind value cs :: ps)) :
    ∃ p, Parser.expect kind cause c = .ok (⟨kind, String.ofList value, p⟩, c.next) ∧
      c.next.rest = tokens (p.after cs) ps := by
  have hkind : c.kind = kind := c.kind_of_before _ hc
  obtain ⟨p, hcurrent, hrest⟩ := c.of_before_token kind value cs ps hk hc
  refine ⟨p, ?_, hrest⟩
  show (if c.kind = kind then Parser.advance else Parser.fail cause) c = _
  rw [if_pos hkind, ← hcurrent]
  rfl

theorem reads_expect (next : Token → Parser β) (kind : TokenKind) (cause : SyntaxCause)
    (value cs : List Char) (ps rest : List Piece) (b : β) (hk : kind ≠ .endOfText)
    (h : ∀ p, Reads (next ⟨kind, String.ofList value, p⟩) ps rest b) :
    Reads (Parser.expect kind cause >>= next) (token kind value cs :: ps) rest b := by
  intro c hc
  obtain ⟨p, hexpect, hrest⟩ := expect_of_before c kind cause value cs (ps ++ rest) hk hc
  obtain ⟨c', hp, hc'⟩ := h p c.next ⟨_, hrest⟩
  refine ⟨c', ?_, hc'⟩
  show (Parser.expect kind cause c >>= fun x => next x.1 x.2) = _
  rw [hexpect]
  exact hp

/-! ### Paths -/

/-- Whether a list of pieces starts with a point that stands flush. -/
def StartsFlush : List Piece → Prop
  | token kind _ _ :: _ => kind = .dot
  | _ => False

def segmentPieces (segments : List String) : List Piece :=
  segments.flatMap fun s => [symbol .dot, name s.toList]

theorem after_of_name (p : Position) (cs : List Char) (h : ∀ c ∈ cs, c ≠ '\n') :
    p.after cs = ⟨p.line, p.column + cs.length⟩ := by
  induction cs generalizing p with
  | nil => rfl
  | cons c cs ih =>
    have hstep : p.step c = ⟨p.line, p.column + 1⟩ := if_neg (h c List.mem_cons_self)
    rw [Position.after, List.foldl_cons, ← Position.after, hstep,
      ih _ fun d hd => h d (List.mem_cons_of_mem c hd), List.length_cons, Nat.add_right_comm,
      Nat.add_assoc]

theorem touches_after (kind kind' : TokenKind) (value value' : String) (p : Position)
    (h : ∀ c ∈ value.toList, c ≠ '\n') :
    Token.touches ⟨kind, value, p⟩ ⟨kind', value', p.after value.toList⟩ = true := by
  simp [Token.touches, after_of_name p value.toList h, String.length_toList]

theorem ne_newline_of_isName (cs : List Char) (h : Text.isName cs = true) : ∀ c ∈ cs, c ≠ '\n' := by
  rintro c hc rfl
  cases cs with
  | nil => cases hc
  | cons d ds =>
    simp only [Text.isName, Bool.and_eq_true, List.all_eq_true] at h
    rcases List.mem_cons.mp hc with rfl | hc
    · exact absurd h.1 (by decide)
    · exact absurd (h.2 _ hc) (by decide)

theorem head_tokens (p : Position) (ps : List Piece) :
    ∃ t ts, tokens p ps = t :: ts ∧ t.position.line = p.line ∧ p.column ≤ t.position.column := by
  induction ps generalizing p with
  | nil => exact ⟨_, _, rfl, rfl, Nat.le_refl _⟩
  | cons q ps ih =>
    cases q with
    | gap =>
      obtain ⟨t, ts, ht, hline, hcolumn⟩ := ih (p.step ' ')
      have hstep : p.step ' ' = ⟨p.line, p.column + 1⟩ := if_neg (by decide)
      rw [hstep] at hline hcolumn
      have hle : p.column + 1 ≤ t.position.column := hcolumn
      exact ⟨t, ts, ht, hline, by omega⟩
    | token kind value cs => exact ⟨_, _, rfl, rfl, Nat.le_refl _⟩

/-- A path ends before a space and before every token but a point. -/
theorem segments_of_not_startsFlush (last : Token) (rest : List Piece)
    (hl : ∀ c ∈ last.value.toList, c ≠ '\n') (h : ¬StartsFlush rest) :
    Parser.segments last (tokens (last.position.after last.value.toList) rest) = [] := by
  have stop : ∀ t ts, (t.kind = .dot → last.touches t = false) →
      Parser.segments last (t :: ts) = [] := by
    intro t ts ht
    cases ts with
    | nil => rfl
    | cons u ts =>
      by_cases hdot : t.kind = .dot
      · simp [Parser.segments, ht hdot]
      · simp [Parser.segments, hdot]
  cases rest with
  | nil => rfl
  | cons q rest =>
    cases q with
    | gap =>
      have hafter := after_of_name last.position last.value.toList hl
      obtain ⟨t, ts, ht, -, hcolumn⟩ :=
        head_tokens ((last.position.after last.value.toList).step ' ') rest
      have hstep : ∀ p : Position, p.step ' ' = ⟨p.line, p.column + 1⟩ := fun p =>
        if_neg (by decide)
      have hapart : last.position.column + last.value.length < t.position.column := by
        rw [hstep, hafter, String.length_toList] at hcolumn
        exact hcolumn
      rw [tokens, ht]
      refine stop t ts fun _ => ?_
      have : t.position.column ≠ last.position.column + last.value.length := by omega
      simp [Token.touches, this]
    | token kind value cs => exact stop _ _ fun hdot => absurd hdot h

theorem segments_of_pieces (last : Token) (segments : List String) (rest : List Piece)
    (hl : ∀ c ∈ last.value.toList, c ≠ '\n')
    (hs : ∀ s ∈ segments, Text.isName s.toList = true) (h : ¬StartsFlush rest) :
    Parser.segments last (tokens (last.position.after last.value.toList)
        (segmentPieces segments ++ rest)) = segments ∧
      ∃ p, (tokens (last.position.after last.value.toList) (segmentPieces segments ++ rest)).drop
        (2 * segments.length) = tokens p rest := by
  induction segments generalizing last with
  | nil => exact ⟨segments_of_not_startsFlush last rest hl h, _, rfl⟩
  | cons s segments ih =>
    have hname : Text.isName s.toList = true := hs s List.mem_cons_self
    have hline := ne_newline_of_isName s.toList hname
    let point : Token := ⟨.dot, ".", last.position.after last.value.toList⟩
    let next : Token := ⟨.identifier, s, point.position.after point.value.toList⟩
    have hsplit : tokens (last.position.after last.value.toList)
        (segmentPieces (s :: segments) ++ rest) = point :: next ::
          tokens (next.position.after next.value.toList) (segmentPieces segments ++ rest) := by
      simp [segmentPieces, tokens, symbol, name, TokenKind.symbol, point, next]
    have hpoint : last.touches point = true := touches_after _ _ _ _ _ hl
    have hnext : point.touches next = true :=
      touches_after .dot .identifier "." s point.position (by simp)
    obtain ⟨hsegments, p, hdrop⟩ := ih next hline fun t ht => hs t (List.mem_cons_of_mem s ht)
    rw [hsplit]
    refine ⟨?_, p, ?_⟩
    · simp only [Parser.segments, hpoint, hnext, hsegments]
      rfl
    · rw [List.length_cons, Nat.mul_succ]
      exact hdrop

theorem reads_path (next : Token → List String → Parser β) (cause : SyntaxCause) (first : String)
    (segments : List String) (ps rest : List Piece) (b : β)
    (hf : Text.isName first.toList = true) (hs : ∀ s ∈ segments, Text.isName s.toList = true)
    (h : ¬StartsFlush (ps ++ rest))
    (hn : ∀ p, Reads (next ⟨.identifier, first, p⟩ (first :: segments)) ps rest b) :
    Reads (Parser.expect .identifier cause >>= fun t => Parser.path t >>= next t)
      (name first.toList :: segmentPieces segments ++ ps) rest b := by
  intro c hc
  simp only [List.cons_append, List.append_assoc] at hc
  obtain ⟨p, hexpect, hrest⟩ := expect_of_before c .identifier cause first.toList first.toList
    (segmentPieces segments ++ (ps ++ rest)) (by decide) hc
  rw [String.ofList_toList] at hexpect
  obtain ⟨hsegments, q, hdrop⟩ := segments_of_pieces ⟨.identifier, first, p⟩ segments (ps ++ rest)
    (ne_newline_of_isName first.toList hf) hs h
  rw [← hrest] at hsegments hdrop
  let behind : Cursor := ⟨c.next.index + 2 * segments.length, c.next.rest.drop
    (2 * segments.length)⟩
  obtain ⟨c', hp, hc'⟩ := hn p behind ⟨q, hdrop⟩
  refine ⟨c', ?_, hc'⟩
  have hpath : Parser.path ⟨.identifier, first, p⟩ c.next = .ok (first :: segments, behind) := by
    show Except.ok (first :: Parser.segments ⟨.identifier, first, p⟩ c.next.rest, _) = _
    rw [hsegments]
  show (Parser.expect .identifier cause c >>= fun x => (Parser.path x.1 >>= next x.1) x.2) = _
  rw [hexpect]
  show (Parser.path ⟨.identifier, first, p⟩ c.next >>= fun x => next _ x.1 x.2) = _
  rw [hpath]
  exact hp

/-! ### Repetition -/

/-- The pieces `ps` are those of items, one after the other, each of which the next token allows,
and what follows them allows no further one. -/
inductive ReadsAll (goesOn : Cursor → Bool) (item : Parser α) (rest : List Piece) :
    List Piece → List α → Prop
  | nil (h : ∀ c : Cursor, c.Before rest → goesOn c = false) : ReadsAll goesOn item rest [] []
  | cons (ps qs : List Piece) (a : α) (as : List α) (hk : kinds ps ≠ [])
      (hg : ∀ c : Cursor, c.Before (ps ++ qs ++ rest) → goesOn c = true)
      (ha : Reads item ps (qs ++ rest) a) (has : ReadsAll goesOn item rest qs as) :
      ReadsAll goesOn item rest (ps ++ qs) (a :: as)

theorem length_tokens (p : Position) (ps : List Piece) :
    (tokens p ps).length = (kinds ps).length + 1 := by
  have h := congrArg List.length (map_kind_tokens p ps)
  simpa using h

theorem repeatFrom_of_readsAll (goesOn : Cursor → Bool) (item : Parser α) (rest ps : List Piece)
    (as : List α) (h : ReadsAll goesOn item rest ps as) (bound : List Token) (c : Cursor)
    (hb : as.length < bound.length) (hc : c.Before (ps ++ rest)) :
    ∃ c' : Cursor, Parser.repeatFrom goesOn item bound c = .ok (as, c') ∧ c'.Before rest := by
  induction h generalizing bound c with
  | nil hstop => exact ⟨c, Parser.repeatFrom_stop (hstop c hc) bound, hc⟩
  | cons ps qs a as hk hg ha has ih =>
    cases bound with
    | nil => exact absurd hb (by simp)
    | cons t bound =>
      obtain ⟨c₁, h₁, hc₁⟩ := ha c (by rwa [List.append_assoc] at hc)
      obtain ⟨c₂, h₂, hc₂⟩ := ih bound c₁ (by simpa using hb) hc₁
      exact ⟨c₂, Parser.repeatFrom_next (hg c hc) h₁ h₂ t, hc₂⟩

theorem length_le_of_readsAll (goesOn : Cursor → Bool) (item : Parser α) (rest ps : List Piece)
    (as : List α) (h : ReadsAll goesOn item rest ps as) : as.length ≤ (kinds ps).length := by
  induction h with
  | nil => exact Nat.le_refl _
  | cons ps qs a as hk hg ha has ih =>
    have hpos : 0 < (kinds ps).length := List.length_pos_iff.mpr hk
    rw [kinds_append, List.length_append, List.length_cons]
    omega

theorem reads_repeatWhile (goesOn : Cursor → Bool) (item : Parser α) (rest ps : List Piece)
    (as : List α) (h : ReadsAll goesOn item rest ps as) :
    Reads (Parser.repeatWhile goesOn item) ps rest as := by
  intro c hc
  have hle := length_le_of_readsAll goesOn item rest ps as h
  have hlt : as.length < c.rest.length := by
    obtain ⟨p, hp⟩ := hc
    rw [hp, length_tokens, kinds_append, List.length_append]
    omega
  exact repeatFrom_of_readsAll goesOn item rest ps as h c.rest c hlt hc

end ProseGrammar
