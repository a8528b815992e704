import ProseGrammar.Proofs.Binary64
import ProseGrammar.Proofs.Grammar.Rereading
import ProseGrammar.Proofs.Growth

/-!
# Reading a grammar back

Elements read back one after the other up to the end of their alternative. Between two rules stands
a line break; an alternative without a weight takes it as its last element and drops it, behind a
weight it is skipped before the next rule.
-/

namespace ProseGrammar

open Piece

variable {inner : Parser.Inner}

/-! ### Elements -/

def TokenKind.startsElement : TokenKind → Bool
  | string | number | identifier | dot | comma | bang | colon | dollar | leftBracket | newline =>
    true
  | _ => false

theorem startsElement_facts {kind : TokenKind} (h : kind.startsElement = true) :
    kind ≠ .endOfText ∧ kind ≠ .pipe ∧ kind ≠ .doubleColon ∧ kind ≠ .define ∧
      kind.makesVariable = false := by
  cases kind <;> first | decide | cases h

/-- The forms that the text of an element has: a token that is literal text, a reference, or an
expression in brackets. -/
inductive ElementForm : Node → Prop
  | word (n : Node) (kind : TokenKind) (s : String) (cs : List Char)
      (hk : kind.startsElement = true) (hdollar : kind ≠ .dollar) (hbracket : kind ≠ .leftBracket)
      (hbreak : kind = .newline → s = "\n")
      (hpieces : n.textPieces = [token kind s.toList cs])
      (hreread : n.rereadElement = .literal (.text s)) : ElementForm n
  | rule (x : String) (hx : Text.isName x.toList = true) : ElementForm (.rule x)
  | reference (target : Reference) (ht : target.isPath = true) : ElementForm (.reference target)
  | bracket (n m : Node) (silent : Bool) (hf : m.fits .expression = true) (hp : m.plain = true)
      (hlevels : m.levels ≤ n.levels)
      (hpieces : n.textPieces = symbol .leftBracket ::
        (if silent then symbol .bang :: m.pieces else m.pieces) ++ [symbol .rightBracket])
      (hreread : n.rereadElement = Node.silentIf silent (m.reread .expression)) : ElementForm n

theorem elementForm_word (n : Node) (s : String) (cs : List Char) (hs : cs = s.toList)
    (hpieces : n.textPieces = [word cs]) (hreread : n.rereadElement = .literal (.text s)) :
    ElementForm n := by
  subst hs
  unfold word at hpieces
  split at hpieces
  · exact .word n .identifier s _ rfl TokenKind.noConfusion TokenKind.noConfusion nofun hpieces hreread
  · exact .word n .number s _ rfl TokenKind.noConfusion TokenKind.noConfusion nofun hpieces hreread

theorem elementForm_text (s : String) : ElementForm (.literal (.text s)) := by
  by_cases hbreak : (Node.literal (.text s)).isLineBreak = true
  · obtain rfl : s = "\n" := by simpa [Node.isLineBreak] using hbreak
    exact .word _ .newline "\n" ['\n'] rfl TokenKind.noConfusion TokenKind.noConfusion (fun _ => rfl)
      rfl rfl
  have hpieces : (Node.literal (.text s)).textPieces = [literal s true] := if_neg hbreak
  unfold literal at hpieces
  split at hpieces
  · exact elementForm_word _ s _ rfl hpieces rfl
  split at hpieces
  next hp =>
    have hpunctuation : Text.isBarePunctuation s = true := by simpa using hp
    rcases isBarePunctuation_cases s hpunctuation with rfl | rfl | rfl | rfl
    · exact .word _ .dot "." ['.'] rfl TokenKind.noConfusion TokenKind.noConfusion nofun hpieces rfl
    · exact .word _ .comma "," [','] rfl TokenKind.noConfusion TokenKind.noConfusion nofun hpieces rfl
    · exact .word _ .bang "!" ['!'] rfl TokenKind.noConfusion TokenKind.noConfusion nofun hpieces rfl
    · exact .word _ .colon ":" [':'] rfl TokenKind.noConfusion TokenKind.noConfusion nofun hpieces rfl
  next => exact .word _ .string s _ rfl TokenKind.noConfusion TokenKind.noConfusion nofun hpieces rfl

theorem elementForm_of_fits (n : Node) (hf : n.fits .expression = true)
    (hp : n.plainElement = true) : ElementForm n := by
  cases n with
  | literal v =>
    cases v with
    | text s => exact elementForm_text s
    | number m =>
      obtain ⟨s, hs, hw, hpieces⟩ := elementPieces_number m hp
      refine elementForm_word _ s _ rfl hpieces ?_
      simp only [Node.rereadElement, hs]
    | _ => cases hf
  | rule x => exact .rule x hf
  | reference target => exact .reference target hf
  | silent m =>
    refine .bracket _ m true hf hp (Nat.le_succ _) ?_ rfl
    simp [Node.textPieces, Node.isLineBreak, Node.elementPieces, Node.isBracketed, inBrackets,
      Node.pieces]
  | alternative a => cases hf
  | definition r => cases hf
  | missing => cases hf
  | _ => exact .bracket _ _ false hf hp (Nat.le_refl _) rfl rfl

/-- How the text of an element starts: with no token that ends an alternative, and like the
definition of a rule only if `:=` follows. -/
theorem textPieces_starts (n : Node) (h : ElementForm n) :
    (kindAt n.textPieces 0).startsElement = true ∧
      ∀ more, kindAt more 0 ≠ .define → ¬(kindAt (n.textPieces ++ more) 0 = .dollar ∧
        kindAt (n.textPieces ++ more) 1 = .identifier ∧
          kindAt (n.textPieces ++ more) 2 = .define) := by
  cases h with
  | word n kind s cs hk hdollar hbracket hbreak hpieces hreread =>
    rw [hpieces]
    exact ⟨hk, fun more _ h => hdollar h.1⟩
  | rule x hx => exact ⟨rfl, fun more hmore h => hmore h.2.2⟩
  | reference target ht =>
    obtain ⟨path, isKnowledge⟩ := target
    cases path with
    | nil => cases ht
    | cons first segments =>
      cases isKnowledge with
      | true => exact ⟨rfl, fun more _ h => nomatch h.2.1⟩
      | false =>
        cases segments with
        | nil => exact ⟨rfl, fun more hmore h => hmore h.2.2⟩
        | cons s segments => exact ⟨rfl, fun more _ h => nomatch h.2.2⟩
  | bracket n m silent hf hp hlevels hpieces hreread =>
    rw [hpieces]
    exact ⟨rfl, fun more _ h => nomatch h.1⟩

theorem reads_element_dollar (ps rest : List Piece) (n : Node) (h : Reads Parser.dollar ps rest n)
    (hk : (kindAt rest 0).isAssignment = false) :
    Reads (Parser.element inner) (symbol .dollar :: ps) rest n := by
  refine reads_advance _ .dollar _ _ _ rest _ (by decide) fun p => ?_
  simp only
  rw [← List.append_nil ps]
  refine reads_bind _ _ ps [] rest n _ h ?_
  cases n with
  | reference target =>
    refine reads_get _ _ _ _ fun c hc => ?_
    have hkind : c.kind.isAssignment = false := by
      rw [c.kind_of_before _ hc]
      exact hk
    simp only [hkind, Bool.false_eq_true, if_false]
    exact reads_pure _ rest
  | _ => exact reads_pure _ rest

/-- An element reads back before whatever may follow it in running text. -/
theorem reads_element (n : Node) (h : ElementForm n) (e : Nat) (he : n.levels ≤ e)
    (rest : List Piece) (hflush : ¬StartsFlush rest)
    (hvariable : (kindAt rest 0).makesVariable = false) :
    Reads (Parser.element (Parser.Inner.level e)) n.textPieces rest n.rereadElement := by
  have hassign : ∀ {kind : TokenKind}, kind.makesVariable = false → kind.isAssignment = false := by
    intro kind hk
    cases kind <;> first | rfl | cases hk
  cases h with
  | word n kind s cs hk hdollar hbracket hbreak hpieces hreread =>
    rw [hpieces, hreread]
    refine reads_advance _ kind _ _ _ rest _ (startsElement_facts hk).1 fun p => ?_
    rw [String.ofList_toList]
    cases kind with
    | leftBracket => exact absurd rfl hbracket
    | dollar => exact absurd rfl hdollar
    | newline =>
      obtain rfl := hbreak rfl
      exact reads_pure _ rest
    | _ => exact reads_pure _ rest
  | rule x hx =>
    have hdollar := reads_dollar_rule x hx rest hflush
    rw [placeBefore_of_not_makesVariable hvariable] at hdollar
    exact reads_element_dollar _ rest _ hdollar (hassign hvariable)
  | reference target ht =>
    obtain ⟨path, isKnowledge⟩ := target
    cases path with
    | nil => cases ht
    | cons first segments =>
      cases isKnowledge with
      | true =>
        exact reads_element_dollar _ rest _
          (reads_dollar_knowledge first segments rest ht hflush) (hassign hvariable)
      | false =>
        have hdollar := reads_dollar_variable first segments rest ht hflush
        rw [placeBefore_of_not_makesVariable hvariable] at hdollar
        exact reads_element_dollar _ rest _ hdollar (hassign hvariable)
  | bracket n m silent hf hp hlevels hpieces hreread =>
    have hm : ReadsBack m.levels m := readsIn_of_fits m .expression hf hp
    have hcontents := hm.contents e (Nat.le_trans hlevels he) silent rest
    rw [hpieces, hreread]
    refine reads_advance _ .leftBracket _ _ _ rest _ (by decide) fun p => ?_
    cases silent with
    | false => exact reads_bracket _ rest _ (opens_append _ _ hm.opens) hcontents
    | true => exact reads_accept _ .bang _ _ _ rest _ (by decide) hcontents

/-! ### Alternatives -/

theorem atElement_of_before (c : Cursor) (n : Node) (h : ElementForm n) (more : List Piece)
    (hmore : kindAt more 0 ≠ .define) (hc : c.Before (n.textPieces ++ more)) :
    Parser.atElement c = true := by
  obtain ⟨hstart, hrule⟩ := textPieces_starts n h
  obtain ⟨hend, hpipe, hcolon, -, -⟩ := startsElement_facts hstart
  have hk : c.kind = kindAt n.textPieces 0 := by
    rw [c.kind_of_before _ hc, kindAt_append _ _ hend]
  have hno : c.atRuleStart = false := by
    have hrule := hrule more hmore
    rw [← c.kindAt_of_before _ hc, ← c.kindAt_of_before _ hc, ← c.kindAt_of_before _ hc] at hrule
    simpa [Cursor.atRuleStart] using hrule
  simp [Parser.atElement, hk, hend, hpipe, hcolon, hno]

/-- What may follow the elements of an alternative, a gap aside. -/
structure EndsElements (rest : List Piece) : Prop where
  flush : ¬StartsFlush rest
  noVariable : (kindAt rest 0).makesVariable = false
  noDefine : kindAt rest 0 ≠ .define

theorem readsAll_elements (elements : List Node) (h : ∀ n ∈ elements, ElementForm n) (e : Nat)
    (he : mostLevels elements ≤ e) (qs rest : List Piece) (more : List Node)
    (hends : EndsElements (qs ++ rest))
    (hmore : ReadsAll Parser.atElement (Parser.element (Parser.Inner.level e)) rest qs more) :
    ∃ ps, (∀ first : List Piece,
        joined [gap] (first :: elements.map Node.textPieces) = first ++ ps) ∧
      EndsElements (ps ++ (qs ++ rest)) ∧
      ReadsAll Parser.atElement (Parser.element (Parser.Inner.level e)) rest (ps ++ qs)
        (elements.map Node.rereadElement ++ more) := by
  -- from the last element back to the first: what an element is read as lies in what follows it
  induction elements with
  | nil => exact ⟨[], fun first => by simp [joined], hends, hmore⟩
  | cons n elements ih =>
    rw [mostLevels] at he
    obtain ⟨ps, hps, hends', hall⟩ := ih (fun m hm => h m (List.mem_cons_of_mem n hm)) (by omega)
    have hn := h n List.mem_cons_self
    obtain ⟨hstart, -⟩ := textPieces_starts n hn
    obtain ⟨hend, -, -, hdefine, hvariable⟩ := startsElement_facts hstart
    have hkind : ∀ us, kindAt (gap :: n.textPieces ++ us) 0 = kindAt n.textPieces 0 := fun us =>
      kindAt_append _ us hend
    refine ⟨gap :: n.textPieces ++ ps, fun first => ?_, ⟨fun h => h, ?_, ?_⟩, ?_⟩
    · rw [List.map_cons, joined, hps]
      · simp
      · exact List.cons_ne_nil _ _
    · rw [List.append_assoc, hkind]
      exact hvariable
    · rw [List.append_assoc, hkind]
      exact hdefine
    · have hitem := reads_gap _ _ _ _ (reads_element n hn e (by omega) _ hends'.flush
        hends'.noVariable)
      rw [List.append_assoc]
      refine .cons _ (ps ++ qs) _ _ ?_ (fun c hc => ?_) (by rwa [List.append_assoc]) hall
      · intro hkinds
        have hnone : kinds n.textPieces = [] := hkinds
        rw [kindAt, hnone] at hend
        exact hend rfl
      · have hc' : c.Before (n.textPieces ++ (ps ++ (qs ++ rest))) := by
          apply c.before_of_gap
          simpa using hc
        exact atElement_of_before c n hn _ hends'.noDefine hc'

theorem isLineBreak_rereadElement (n : Node) (hf : n.fits .expression = true)
    (hp : n.plainElement = true) : n.rereadElement.isLineBreak = n.isLineBreak := by
  cases n with
  | literal v =>
    cases v with
    | text s => rfl
    | number m =>
      obtain ⟨s, hs, hw, -⟩ := elementPieces_number m hp
      have hbreak : s ≠ "\n" := by
        rintro rfl
        exact absurd hw (by decide)
      simp [Node.rereadElement, hs, Node.isLineBreak, hbreak]
    | _ => cases hf
  | reference target =>
    simp only [Node.rereadElement, Node.reread]
    split <;> rfl
  | rule x => rfl
  | _ => rfl

/-- Dropping line breaks leaves elements alone that neither start nor end with one. -/
theorem trimBreaks_append (elements more : List Node) (hne : elements ≠ [])
    (hfirst : elements.head?.all (fun n => !n.isLineBreak) = true)
    (hlast : elements.getLast?.all (fun n => !n.isLineBreak) = true)
    (hmore : ∀ n ∈ more, n.isLineBreak = true) :
    Parser.trimBreaks (elements ++ more) = elements := by
  have hdrop : (elements ++ more).reverse.dropWhile Node.isLineBreak = elements.reverse := by
    rw [List.reverse_append, List.dropWhile_append_of_pos fun n hn => hmore n (by simpa using hn)]
    cases hr : elements.reverse with
    | nil => rfl
    | cons n rest =>
      have hn : elements.getLast? = some n := by
        rw [List.getLast?_eq_head?_reverse, hr]
        rfl
      have hno : n.isLineBreak = false := by simpa [hn] using hlast
      simp [hno]
  rw [Parser.trimBreaks, hdrop, List.reverse_reverse]
  cases elements with
  | nil => exact absurd rfl hne
  | cons n rest =>
    have hno : n.isLineBreak = false := by simpa using hfirst
    simp [hno]

theorem reads_finishAlternative (elements more : List Node) (w : Float) (rest : List Piece)
    (hne : elements ≠ [])
    (hfirst : elements.head?.all (fun n => !n.isLineBreak) = true)
    (hlast : elements.getLast?.all (fun n => !n.isLineBreak) = true)
    (hmore : ∀ n ∈ more, n.isLineBreak = true) :
    Reads (Parser.finishAlternative (elements ++ more) w) [] rest ⟨elements, .float w⟩ := by
  rw [Parser.finishAlternative, trimBreaks_append elements more hne hfirst hlast hmore]
  have hempty : elements.isEmpty = false := by simpa using hne
  rw [hempty]
  exact reads_pure _ rest

theorem reads_weight (s : String) (n : Numeral) (hn : Numeral.ofChars? s.toList = some n)
    (hpos : ¬n.toFloat ≤ 0) (rest : List Piece) :
    Reads Parser.weight [numeral s.toList] rest n.toFloat := by
  refine reads_get _ _ _ _ fun c hc => ?_
  have hk : c.kind = .number := c.kind_of_before _ hc
  simp only [hk, if_true]
  refine reads_advance _ .number _ _ [] rest _ (by decide) fun p => ?_
  have hfloat : (Token.mk .number (String.ofList s.toList) p).float = n.toFloat := by
    simp [Token.float, hn]
  rw [hfloat, if_neg hpos]
  exact reads_pure _ rest

/-- Neither end of a list of elements becomes a line break by being read back. -/
theorem rereadElements_ends (elements : List Node)
    (hbreaks : ∀ n ∈ elements, n.rereadElement.isLineBreak = n.isLineBreak)
    (hfirst : elements.head?.all (fun n => !n.isLineBreak) = true)
    (hlast : elements.getLast?.all (fun n => !n.isLineBreak) = true) :
    (elements.map Node.rereadElement).head?.all (fun n => !n.isLineBreak) = true ∧
      (elements.map Node.rereadElement).getLast?.all (fun n => !n.isLineBreak) = true := by
  rw [List.head?_map, List.getLast?_map]
  constructor
  · cases hn : elements.head? with
    | none => rfl
    | some n =>
      have h := hbreaks n (List.mem_of_head? hn)
      rw [hn] at hfirst
      simpa [h] using hfirst
  · cases hn : elements.getLast? with
    | none => rfl
    | some n =>
      have h := hbreaks n (List.mem_of_getLast? hn)
      rw [hn] at hlast
      simpa [h] using hlast

theorem readsAll_textPieces (elements : List Node) (hne : elements ≠ [])
    (h : ∀ n ∈ elements, ElementForm n) (e : Nat) (he : mostLevels elements ≤ e)
    (qs rest : List Piece) (more : List Node) (hends : EndsElements (qs ++ rest))
    (hmore : ReadsAll Parser.atElement (Parser.element (Parser.Inner.level e)) rest qs more) :
    ReadsAll Parser.atElement (Parser.element (Parser.Inner.level e)) rest
      (joined [gap] (elements.map Node.textPieces) ++ qs)
      (elements.map Node.rereadElement ++ more) := by
  obtain ⟨first, others, rfl⟩ := List.exists_cons_of_ne_nil hne
  rw [mostLevels] at he
  have hfirst := h first List.mem_cons_self
  obtain ⟨ps, hps, hends', hothers⟩ := readsAll_elements others
    (fun n hn => h n (List.mem_cons_of_mem first hn)) e (by omega) qs rest more hends hmore
  obtain ⟨hstart, -⟩ := textPieces_starts first hfirst
  rw [List.map_cons, hps, List.append_assoc]
  refine .cons _ (ps ++ qs) _ _ ?_ (fun c hc => ?_) ?_ hothers
  · intro hkinds
    rw [kindAt, hkinds] at hstart
    cases hstart
  · refine atElement_of_before c first hfirst _ hends'.noDefine ?_
    simpa using hc
  · have hread := reads_element first hfirst e (by omega) _ hends'.flush hends'.noVariable
    rwa [List.append_assoc]

/-- An alternative reads back: with its weight before everything, without one as long as what is
read as further elements is line breaks. -/
theorem reads_alternative (a : Alternative) (hf : a.fits = true) (hp : a.plain = true) (e : Nat)
    (he : mostLevels a.elements ≤ e) :
    (a.weight.weightPieces ≠ [] → ∀ rest,
      Reads (Parser.alternative (Parser.Inner.level e)) a.pieces rest a.reread) ∧
    (a.weight.weightPieces = [] → ∀ qs rest more, EndsElements (qs ++ rest) →
      kindAt rest 0 ≠ .doubleColon → (∀ n ∈ more, n.isLineBreak = true) →
      ReadsAll Parser.atElement (Parser.element (Parser.Inner.level e)) rest qs more →
      Reads (Parser.alternative (Parser.Inner.level e)) (a.pieces ++ qs) rest a.reread) := by
  obtain ⟨elements, weight⟩ := a
  simp only [Alternative.fits, Alternative.plain, Bool.and_eq_true, List.all_eq_true] at hf hp
  obtain ⟨⟨⟨⟨hfit, hempty⟩, hhead⟩, hlast⟩, hweight⟩ := hf
  have hne : elements ≠ [] := by simpa using hempty
  have hplain : ∀ n ∈ elements, n.fits .expression = true ∧ n.plainElement = true := fun n hn =>
    ⟨fits_of_mem elements hfit n hn, hp.1 n hn⟩
  have hall := readsAll_textPieces elements hne
    (fun n hn => elementForm_of_fits n (hplain n hn).1 (hplain n hn).2) e he
  obtain ⟨hhead', hlast'⟩ := rereadElements_ends elements
    (fun n hn => isLineBreak_rereadElement n (hplain n hn).1 (hplain n hn).2) hhead hlast
  have hne' : elements.map Node.rereadElement ≠ [] := by simpa using hne
  obtain ⟨w, rfl, hw⟩ := weight_cases weight hp.2
  have hpos : ¬w ≤ 0 := by simpa [Value.float] using hweight
  -- a weight ends the elements, without one they go on as far as elements can be read
  refine ⟨fun hwritten rest => ?_, fun hunwritten qs rest more hends hcolon hmore hqs => ?_⟩
  · obtain ⟨-, hnone⟩ | ⟨s, n, -, hn, rfl, hpieces⟩ := hw
    · exact absurd hnone hwritten
    · have hstop : ReadsAll Parser.atElement (Parser.element (Parser.Inner.level e))
          ([gap, symbol .doubleColon, numeral s.toList] ++ rest) [] [] := by
        refine .nil fun c hc => ?_
        have hk : c.kind = .doubleColon := c.kind_of_before _ hc
        simp [Parser.atElement, hk]
      have helements := hall [] ([gap, symbol .doubleColon, numeral s.toList] ++ rest) []
        ⟨fun h => h, rfl, TokenKind.noConfusion⟩ hstop
      rw [Alternative.pieces, hpieces, Parser.alternative_eq]
      rw [List.append_nil] at helements
      refine reads_bind _ _ _ _ rest _ _ (reads_repeatWhile _ _ _ _ _ helements) ?_
      refine reads_gap _ _ _ _ (reads_accept _ .doubleColon _ _ _ rest _ (by decide) ?_)
      rw [← List.append_nil [numeral s.toList]]
      refine reads_bind _ _ _ [] rest _ _ (reads_weight s n hn hpos _) ?_
      exact reads_finishAlternative _ [] _ rest hne' hhead' hlast' (by simp)
  · obtain ⟨hone, hpieces⟩ | ⟨s, n, -, -, -, hpieces⟩ := hw
    · obtain rfl := eq_one_of_equal w hone
      have helements := hall qs rest more hends hqs
      rw [Alternative.pieces, hpieces, Parser.alternative_eq, List.append_nil,
        ← List.append_nil (_ ++ qs)]
      refine reads_bind _ _ _ [] rest _ _ (reads_repeatWhile _ _ _ _ _ helements) ?_
      refine reads_accept_other _ .doubleColon [] rest _ hcolon ?_
      exact reads_finishAlternative _ more 1 rest hne' hhead' hlast' hmore
    · rw [hpieces] at hunwritten
      cases hunwritten

/-! ### Rules -/

/-- What stands between a rule and what follows it: nothing at the end of the text, a line break
before the definition of another rule. -/
inductive Separates : (separator rest : List Piece) → Prop
  | last : Separates [] []
  | next (key : List Char) (more : List Piece) :
      Separates [symbol .newline] (symbol .dollar :: name key :: gap :: symbol .define :: more)

theorem left_of_separates (separator rest taken left : List Piece) (h : Separates separator rest)
    (hsplit : separator = taken ++ left) : left = [] ∨ left = [symbol .newline] := by
  cases h with
  | last => exact .inl (List.append_eq_nil_iff.mp hsplit.symm).2
  | next key more =>
    rcases List.append_eq_singleton_iff.mp hsplit.symm with ⟨-, h⟩ | ⟨-, h⟩
    · exact .inr h
    · exact .inl h

theorem atElement_of_separates (separator rest : List Piece) (h : Separates separator rest)
    (c : Cursor) (hc : c.Before rest) : Parser.atElement c = false := by
  have h0 := c.kindAt_of_before _ hc 0
  have h1 := c.kindAt_of_before _ hc 1
  have h2 := c.kindAt_of_before _ hc 2
  cases h with
  | last =>
    have hk : c.kind = .endOfText := h0
    simp [Parser.atElement, hk]
  | next key more =>
    have hrule : c.atRuleStart = true := by
      simp [Cursor.atRuleStart, h0, h1, h2, symbol, name]
    simp [Parser.atElement, hrule]

theorem reads_newline (rest : List Piece) :
    Reads (Parser.element inner) [symbol .newline] rest Node.lineBreak := by
  refine reads_advance _ .newline _ _ [] rest _ (by decide) fun p => ?_
  exact reads_pure _ rest

/-- The line break behind a rule is read as an element. -/
theorem readsAll_separator (separator rest : List Piece) (h : Separates separator rest) :
    ∃ more, (∀ n ∈ more, n.isLineBreak = true) ∧ EndsElements (separator ++ rest) ∧
      kindAt rest 0 ≠ .doubleColon ∧
      ReadsAll Parser.atElement (Parser.element inner) rest separator more := by
  have hstop := atElement_of_separates separator rest h
  cases h with
  | last =>
    refine ⟨[], ?_, ⟨fun h => h, rfl, TokenKind.noConfusion⟩, TokenKind.noConfusion, .nil hstop⟩
    intro n hn
    cases hn
  | next key more =>
    refine ⟨[Node.lineBreak], ?_, ⟨TokenKind.noConfusion, rfl, TokenKind.noConfusion⟩,
      TokenKind.noConfusion, .cons [symbol .newline] [] _ [] ?_ (fun c hc => ?_) (reads_newline _)
        (.nil hstop)⟩
    · intro n hn
      obtain rfl : n = Node.lineBreak := by simpa using hn
      decide
    · exact List.cons_ne_nil _ _
    · have hk : c.kind = .newline := c.kind_of_before _ hc
      have hrule : c.atRuleStart = false := by
        have hk0 : c.kindAt 0 = .newline := hk
        simp [Cursor.atRuleStart, hk0]
      simp [Parser.atElement, hk, hrule]

/-- The last alternative of a rule reads back, with or without the line break behind it. -/
theorem reads_alternative_last (a : Alternative) (hf : a.fits = true) (hp : a.plain = true)
    (e : Nat) (he : mostLevels a.elements ≤ e) (separator rest : List Piece)
    (hs : Separates separator rest) :
    ∃ taken left, separator = taken ++ left ∧
      Reads (Parser.alternative (Parser.Inner.level e)) (a.pieces ++ taken) (left ++ rest)
        a.reread := by
  obtain ⟨hwritten, hunwritten⟩ := reads_alternative a hf hp e he
  by_cases hw : a.weight.weightPieces = []
  · obtain ⟨more, hmore, hends, hcolon, hall⟩ := readsAll_separator separator rest hs
    exact ⟨separator, [], (List.append_nil _).symm, hunwritten hw separator rest more hends hcolon
      hmore hall⟩
  · refine ⟨[], separator, rfl, ?_⟩
    rw [List.append_nil]
    exact hwritten hw (separator ++ rest)

theorem reads_alternative_before_pipe (a : Alternative) (hf : a.fits = true) (hp : a.plain = true)
    (e : Nat) (he : mostLevels a.elements ≤ e) (more : List Piece) :
    Reads (Parser.alternative (Parser.Inner.level e)) a.pieces (spaced .pipe ++ more) a.reread := by
  obtain ⟨hwritten, hunwritten⟩ := reads_alternative a hf hp e he
  by_cases hw : a.weight.weightPieces = []
  · have hall : ReadsAll Parser.atElement (Parser.element (Parser.Inner.level e))
        (spaced .pipe ++ more) [] [] := by
      refine .nil fun c hc => ?_
      have hk : c.kind = .pipe := c.kind_of_before _ hc
      simp [Parser.atElement, hk]
    have h := hunwritten hw [] (spaced .pipe ++ more) [] ⟨fun h => h, rfl, TokenKind.noConfusion⟩
      TokenKind.noConfusion (fun n hn => absurd hn List.not_mem_nil) hall
    rwa [List.append_nil] at h
  · exact hwritten hw _

theorem reads_alternatives (a : Alternative) (others : List Alternative)
    (hf : ∀ b ∈ a :: others, b.fits = true) (hp : ∀ b ∈ a :: others, b.plain = true) (e : Nat)
    (he : ∀ b ∈ a :: others, mostLevels b.elements ≤ e) (separator rest : List Piece)
    (hs : Separates separator rest) :
    ∃ taken left ps qs, separator = taken ++ left ∧
      joined (spaced .pipe) ((a :: others).map Alternative.pieces) ++ taken = ps ++ qs ∧
      Reads (Parser.alternative (Parser.Inner.level e)) ps (qs ++ (left ++ rest)) a.reread ∧
      ReadsAll (fun c => c.kind = .pipe)
        (Parser.advance >>= fun _ => Parser.alternative (Parser.Inner.level e)) (left ++ rest) qs
        (others.map Alternative.reread) := by
  -- only the last alternative meets the separator, every other one ends at a bar
  induction others generalizing a with
  | nil =>
    obtain ⟨taken, left, hsplit, hreads⟩ := reads_alternative_last a (hf a List.mem_cons_self)
      (hp a List.mem_cons_self) e (he a List.mem_cons_self) separator rest hs
    refine ⟨taken, left, a.pieces ++ taken, [], hsplit, by simp [joined], hreads,
      .nil fun c hc => ?_⟩
    rw [c.kind_of_before _ hc]
    rcases left_of_separates separator rest taken left hs hsplit with rfl | rfl
    · cases hs <;> rfl
    · rfl
  | cons b others ih =>
    obtain ⟨taken, left, ps, qs, hsplit, hpieces, hreads, hall⟩ :=
      ih b (fun x hx => hf x (List.mem_cons_of_mem a hx))
        (fun x hx => hp x (List.mem_cons_of_mem a hx)) fun x hx => he x (List.mem_cons_of_mem a hx)
    refine ⟨taken, left, a.pieces, spaced .pipe ++ ps ++ qs, hsplit, ?_, ?_, ?_⟩
    · rw [List.map_cons, List.map_cons, joined, ← List.map_cons, List.append_assoc,
        List.append_assoc, hpieces]
      · simp
      · exact List.cons_ne_nil _ _
    · rw [List.append_assoc, List.append_assoc]
      exact reads_alternative_before_pipe a (hf a List.mem_cons_self) (hp a List.mem_cons_self) e
        (he a List.mem_cons_self) _
    · refine .cons _ qs _ _ (List.cons_ne_nil _ _) (fun c hc => ?_) ?_ hall
      · have hk : c.kind = .pipe := c.kind_of_before _ hc
        simp [hk]
      · refine reads_gap _ _ _ _ (reads_advance _ .pipe _ _ _ _ _ (by decide) fun p => ?_)
        exact reads_gap _ _ _ _ hreads

theorem reads_rule (key : String) (r : Rule) (hname : r.name = key) (hf : r.fits = true)
    (hp : r.alternatives.all Alternative.plain = true) (e : Nat) (he : r.levels ≤ e)
    (separator rest : List Piece) (hs : Separates separator rest) :
    ∃ taken left, separator = taken ++ left ∧
      Reads (Parser.rule (Parser.Inner.level e)) (definitionPieces key r ++ taken) (left ++ rest)
        r.reread := by
  obtain ⟨x, alternatives⟩ := r
  subst hname
  simp only [Rule.fits, Bool.and_eq_true, List.all_eq_true] at hf hp
  cases alternatives with
  | nil => cases hf.1
  | cons a others =>
    have hlevels : ∀ b ∈ a :: others, mostLevels b.elements ≤ e := fun b hb =>
      Nat.le_trans (le_foldr_max (fun x => mostLevels x.elements) _ b hb) he
    obtain ⟨taken, left, ps, qs, hsplit, hpieces, hreads, hall⟩ :=
      reads_alternatives a others hf.2 hp e hlevels separator rest hs
    refine ⟨taken, left, hsplit, ?_⟩
    have hdefinition : definitionPieces x ⟨x, a :: others⟩ ++ taken =
        symbol .dollar :: name x.toList :: gap :: symbol .define :: gap :: (ps ++ qs) := by
      rw [← hpieces]
      simp [definitionPieces, spaced, Rule.pieces]
    show Reads _ (definitionPieces x ⟨x, a :: others⟩ ++ taken) _ _
    rw [hdefinition]
    refine reads_expect _ .dollar _ _ _ _ _ _ (by decide) fun p => ?_
    refine reads_expect _ .identifier _ _ _ _ _ _ (by decide) fun q => ?_
    refine reads_gap _ _ _ _ (reads_expect _ .define _ _ _ _ _ _ (by decide) fun _ => ?_)
    refine reads_gap _ _ _ _ (reads_bind _ _ ps qs _ _ _ hreads ?_)
    rw [← List.append_nil qs]
    refine reads_bind _ _ qs [] _ _ _ (reads_repeatWhile _ _ _ _ _ hall) ?_
    rw [String.ofList_toList]
    exact reads_pure _ _

/-! ### Grammars -/

theorem skipBreaks_of_separator (left rest separator taken : List Piece)
    (hs : Separates separator rest) (hsplit : separator = taken ++ left) (c : Cursor)
    (hc : c.Before (left ++ rest)) : c.skipBreaks.Before rest := by
  rcases left_of_separates separator rest taken left hs hsplit with rfl | rfl
  · refine c.skipBreaks_before rest ?_ hc
    cases hs <;> exact TokenKind.noConfusion
  · obtain ⟨p, hp⟩ := hc
    cases hs with
    | last => exact absurd hsplit (by simp)
    | next key more =>
      refine ⟨p.after ['\n'], ?_⟩
      simp only [Cursor.skipBreaks, hp]
      rfl

def rulePieces (entries : List (String × Rule)) : List Piece :=
  joined [symbol .newline] (entries.map fun entry => definitionPieces entry.1 entry.2)

theorem rulePieces_cons (key : String) (r : Rule) (entries : List (String × Rule)) :
    ∃ separator, Separates separator (rulePieces entries) ∧
      rulePieces ((key, r) :: entries) =
        definitionPieces key r ++ (separator ++ rulePieces entries) := by
  cases entries with
  | nil => exact ⟨[], .last, by simp [rulePieces, joined]⟩
  | cons entry entries =>
    refine ⟨[symbol .newline], ?_, rfl⟩
    obtain ⟨more, hmore⟩ := joined_cons [symbol .newline] (definitionPieces entry.1 entry.2)
      (entries.map fun entry => definitionPieces entry.1 entry.2)
    rw [rulePieces, List.map_cons, hmore]
    exact .next entry.1.toList _

theorem rulesFrom_pieces (entries : List (String × Rule))
    (hf : ∀ entry ∈ entries, entry.2.name = entry.1 ∧ entry.2.fits = true)
    (hp : ∀ entry ∈ entries, entry.2.alternatives.all Alternative.plain = true) (e : Nat)
    (he : ∀ entry ∈ entries, entry.2.levels ≤ e) (bound : List Token) (c : Cursor)
    (hlength : entries.length ≤ bound.length) (hc : c.skipBreaks.Before (rulePieces entries)) :
    Reading.rulesFrom (Parser.Inner.level e) bound c =
      ⟨entries.map fun entry => entry.2.reread, none⟩ := by
  -- reading a rule leaves the cursor before the break behind it, which is skipped before the next
  induction entries generalizing bound c with
  | nil =>
    have hk : c.skipBreaks.kind = .endOfText := c.skipBreaks.kind_of_before _ hc
    cases bound with
    | nil => rfl
    | cons t bound => simp [Reading.rulesFrom, hk]
  | cons entry entries ih =>
    obtain ⟨key, r⟩ := entry
    obtain ⟨hname, hfit⟩ := hf _ List.mem_cons_self
    obtain ⟨separator, hs, hpieces⟩ := rulePieces_cons key r entries
    obtain ⟨taken, left, hsplit, hreads⟩ := reads_rule key r hname hfit (hp _ List.mem_cons_self) e
      (he _ List.mem_cons_self) separator _ hs
    rw [hpieces, hsplit, List.append_assoc, ← List.append_assoc] at hc
    obtain ⟨c', hrule, hc'⟩ := hreads c.skipBreaks hc
    cases bound with
    | nil => exact absurd hlength (by simp)
    | cons t bound =>
      have hk : c.skipBreaks.kind ≠ .endOfText := by
        rw [c.skipBreaks.kind_of_before _ hc]
        exact TokenKind.noConfusion
      have hskip := skipBreaks_of_separator left _ separator taken hs hsplit c' hc'
      have hothers := ih (fun x hx => hf x (List.mem_cons_of_mem _ hx))
        (fun x hx => hp x (List.mem_cons_of_mem _ hx)) (fun x hx => he x (List.mem_cons_of_mem _ hx))
        bound c' (by simpa using hlength) hskip
      simp only [Reading.rulesFrom, if_neg hk, hrule, hothers, List.map_cons]

theorem rulePieces_not_newline (entries : List (String × Rule)) :
    kindAt (rulePieces entries) 0 ≠ .newline := by
  cases entries with
  | nil => exact TokenKind.noConfusion
  | cons entry entries =>
    obtain ⟨separator, -, hpieces⟩ := rulePieces_cons entry.1 entry.2 entries
    rw [show entry :: entries = (entry.1, entry.2) :: entries from rfl, hpieces]
    exact TokenKind.noConfusion

theorem length_le_rulePieces (entries : List (String × Rule)) :
    entries.length ≤ (kinds (rulePieces entries)).length := by
  induction entries with
  | nil => exact Nat.le_refl 0
  | cons entry entries ih =>
    obtain ⟨separator, -, hpieces⟩ := rulePieces_cons entry.1 entry.2 entries
    have hdefinition : 1 ≤ (kinds (definitionPieces entry.1 entry.2)).length := by
      simp [definitionPieces, symbol, name, kinds]
    rw [show entry :: entries = (entry.1, entry.2) :: entries from rfl, hpieces, kinds_append,
      kinds_append, List.length_append, List.length_append, List.length_cons]
    omega

/-- The source text of a grammar that fits and is plain reads back without a fault, with the levels
of nesting that it may take. -/
theorem ofTokens_source (g : Grammar) (hf : g.fits = true) (hp : g.plain = true) :
    ∃ s ts, g.source = .ok s ∧ Token.scan s = .ok ts ∧ ∀ depth, g.levels ≤ depth →
      Reading.ofTokens depth ts = ⟨g.rules.map fun entry => entry.2.reread, none⟩ := by
  obtain ⟨s, hs, htext⟩ := grammarSource_of_fits g hf hp
  have hlegible := legible_grammar g hf hp
  simp only [Grammar.fits, Grammar.plain, Bool.and_eq_true, List.all_eq_true, beq_iff_eq,
    decide_eq_true_eq] at hf hp
  have hscan : Token.scan s = .ok (tokens ⟨1, 1⟩ g.pieces) := by
    rw [Token.scan, ← htext]
    exact scanFrom_text g.pieces hlegible ⟨1, 1⟩
  refine ⟨s, _, hs, hscan, fun depth hdepth => ?_⟩
  have hbound : g.rules.length ≤ (tokens ⟨1, 1⟩ g.pieces).length := by
    have h := length_le_rulePieces g.rules
    rw [length_tokens]
    exact Nat.le_succ_of_le h
  exact rulesFrom_pieces g.rules (fun entry h => ⟨(hf.2 entry h).1.2, (hf.2 entry h).2⟩)
    (fun entry h => List.all_eq_true.mpr (hp entry h)) depth
    (fun entry h => Nat.le_trans (le_foldr_max (fun x => x.2.levels) _ entry h) hdepth) _ _ hbound
    (Cursor.skipBreaks_before _ _ (rulePieces_not_newline g.rules) ⟨⟨1, 1⟩, rfl⟩)

theorem Reading.redefined_of_nodup (seen : List String) (rules : List Rule)
    (h : (seen ++ rules.map Rule.name).Nodup) : Reading.redefined seen rules = [] := by
  induction rules generalizing seen with
  | nil => rfl
  | cons r rules ih =>
    have hnew : r.name ∉ seen := by
      rw [List.map_cons] at h
      intro hmem
      exact (List.nodup_append.mp h).2.2 _ hmem _ List.mem_cons_self rfl
    have hothers : ((r.name :: seen) ++ rules.map Rule.name).Nodup := by
      rw [List.map_cons] at h
      exact List.perm_middle.nodup_iff.mp h
    simp [Reading.redefined, ih _ hothers, hnew]

/-- A grammar that fits and is plain has a source text that reads back as the same grammar, but for
what a name stands for, without a warning. -/
theorem reading_source (g : Grammar) (hf : g.fits = true) (hp : g.plain = true) :
    ∃ s ts, g.source = .ok s ∧ Token.scan s = .ok ts ∧ ∀ depth, g.levels ≤ depth →
      (Reading.ofTokens depth ts).grammar = .ok g.reread ∧
        (Reading.ofTokens depth ts).warnings = [] := by
  obtain ⟨s, ts, hs, hscan, hread⟩ := ofTokens_source g hf hp
  refine ⟨s, ts, hs, hscan, fun depth hdepth => ?_⟩
  rw [hread depth hdepth]
  simp only [Grammar.fits, Bool.and_eq_true, List.all_eq_true, beq_iff_eq, decide_eq_true_eq] at hf
  obtain ⟨⟨hempty, hkeys⟩, hentries⟩ := hf
  have hname : ∀ entry ∈ g.rules, entry.2.reread.name = entry.1 := fun entry he =>
    (hentries entry he).1.2
  have hentry : (g.rules.map fun entry => entry.2.reread).map (fun rule => (rule.name, rule)) =
      g.reread.rules := by
    rw [List.map_map]
    exact List.map_congr_left fun entry he => by simp only [Function.comp_apply, hname entry he]
  have hnames : (g.rules.map fun entry => entry.2.reread).map Rule.name = g.rules.keys := by
    rw [List.map_map]
    exact List.map_congr_left hname
  have hnodup : g.reread.rules.keys.Nodup := by
    rw [Grammar.reread, Table.keys, List.map_map]
    exact hkeys
  refine ⟨?_, ?_⟩
  · simp only [Reading.grammar, List.isEmpty_map, Grammar.ofRules, hentry]
    rw [Table.ofEntries_of_nodup _ hnodup, if_neg (by simpa using hempty)]
  · rw [Reading.warnings, Reading.redefined_of_nodup [] _ (by rw [hnames]; exact hkeys)]
    rfl

end ProseGrammar
