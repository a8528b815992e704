import ProseGrammar.Proofs.Grammar.Form
import ProseGrammar.Proofs.Grammar.Reads

/-!
# Source text in pieces

The source text of a node is made of the spellings of tokens, with a space around every operator.
-/

namespace ProseGrammar

open Piece

/-! ### Operators and references -/

/-- The kind of the token of an operator that has a meaning. -/
def AssignOp.kind : AssignOp → TokenKind
  | set => .assign
  | add => .plusAssign
  | subtract => .minusAssign
  | other _ => .assign

def BinaryOp.kind : BinaryOp → TokenKind
  | add => .plus
  | subtract => .minus
  | multiply => .star
  | divide => .slash
  | equal => .equal
  | notEqual => .notEqual
  | less => .less
  | greater => .greater
  | lessEqual => .lessEqual
  | greaterEqual => .greaterEqual
  | other _ => .plus

theorem assignOp_kind (op : AssignOp) (h : op.isKnown = true) :
    op.symbol.toList = op.kind.symbol ∧ AssignOp.ofSymbol (String.ofList op.kind.symbol) = op ∧
      op.kind.isAssignment = true := by
  cases op with
  | other s => cases h
  | _ => decide

theorem binaryOp_kind (op : BinaryOp) (h : op.isKnown = true) :
    op.symbol.toList = op.kind.symbol ∧ BinaryOp.ofSymbol (String.ofList op.kind.symbol) = op := by
  cases op with
  | other s => cases h
  | _ => decide

@[simp] theorem Piece.chars_gap : gap.chars = [' '] := rfl

@[simp] theorem Piece.chars_symbol (kind : TokenKind) : (symbol kind).chars = kind.symbol := rfl

@[simp] theorem Piece.chars_name (cs : List Char) : (name cs).chars = cs := rfl

@[simp] theorem Piece.chars_numeral (cs : List Char) : (numeral cs).chars = cs := rfl

def Reference.pieces (r : Reference) : List Piece :=
  (if r.isKnowledge then [symbol .dollar, symbol .dollar, symbol .dot] else [symbol .dollar]) ++
    match r.path with
    | [] => []
    | first :: segments => name first.toList :: segmentPieces segments

theorem intercalate_dot (first : String) (segments : List String) :
    (".".intercalate (first :: segments)).toList =
      text (name first.toList :: segmentPieces segments) := by
  rw [String.toList_intercalate]
  induction segments generalizing first with
  | nil => simp [segmentPieces, name, chars]
  | cons s segments ih =>
    rw [List.map_cons, List.map_cons, List.intercalate_cons_cons, ← List.map_cons, ih]
    simp [segmentPieces, name, symbol, chars, TokenKind.symbol]

theorem text_reference (r : Reference) (h : r.isPath = true) : text r.pieces = r.dotted.toList := by
  obtain ⟨path, isKnowledge⟩ := r
  cases path with
  | nil => cases h
  | cons first segments =>
    simp only [Reference.pieces, Reference.dotted, String.toList_append, intercalate_dot,
      text_append]
    congr 1
    cases isKnowledge
    · simp [chars_symbol, TokenKind.symbol]
    · simp [chars_symbol, TokenKind.symbol]

/-! ### Literals -/

namespace Piece

def word (cs : List Char) : Piece :=
  if Text.isName cs then name cs else numeral cs

def punctuation (s : String) : Piece :=
  if s = "." then symbol .dot
  else if s = "," then symbol .comma
  else if s = "!" then symbol .bang
  else symbol .colon

def literal (s : String) (inText : Bool) : Piece :=
  if Text.isBareWord s then word s.toList
  else if inText && Text.isBarePunctuation s then punctuation s
  else quote s.toList

def signed : List Char → List Piece
  | '-' :: digits => [symbol .minus, word digits]
  | cs => [word cs]

theorem text_word (cs : List Char) : (word cs).chars = cs := by
  unfold word
  split <;> rfl

theorem text_signed (cs : List Char) : text (signed cs) = cs := by
  unfold signed
  split <;> simp [text_word, chars_symbol, TokenKind.symbol]

theorem isBarePunctuation_cases (s : String) (h : Text.isBarePunctuation s = true) :
    s = "." ∨ s = "," ∨ s = "!" ∨ s = ":" := by
  simpa [Text.isBarePunctuation, or_assoc] using h

theorem text_literal (s : String) (inText : Bool) :
    (literal s inText).chars = (Text.literalSource s inText).toList := by
  unfold literal Text.literalSource
  by_cases hw : Text.isBareWord s = true
  · simp [hw, text_word]
  · by_cases hp : (inText && Text.isBarePunctuation s) = true
    · have hs := isBarePunctuation_cases s (by simp_all)
      simp only [hw, hp, Bool.or_true, if_true, Bool.false_eq_true, if_false]
      rcases hs with rfl | rfl | rfl | rfl <;> rfl
    · simp only [hw, hp, Bool.or_self, Bool.false_eq_true, if_false, Text.stringSource,
        String.toList_ofList]
      rfl

end Piece

def Value.pieces (v : Value) (inText : Bool) : List Piece :=
  match v with
  | text s => [Piece.literal s inText]
  | v =>
    match v.display with
    | .ok s => signed s.toList
    | .error _ => []

theorem pieces_number (n : Number) (inText : Bool) (s : String) (h : n.display = .ok s) :
    (Value.number n).pieces inText = signed s.toList := by
  simp only [Value.pieces, Value.display, h]

/-! ### Nodes -/

def inBrackets (needed : Bool) (ps : List Piece) : List Piece :=
  if needed then symbol .leftBracket :: ps ++ [symbol .rightBracket] else ps

def spaced (kind : TokenKind) : List Piece :=
  [gap, symbol kind, gap]

theorem text_spaced (kind : TokenKind) : text (spaced kind) = ' ' :: (kind.symbol ++ [' ']) := by
  simp [spaced]

/-- The pieces of an element, given its pieces as an expression. -/
def Node.elementPieces (n : Node) (ps : List Piece) : List Piece :=
  match n with
  | .literal v => v.pieces true
  | n => inBrackets n.isBracketed ps

def joined (separator : List Piece) : List (List Piece) → List Piece
  | [] => []
  | [ps] => ps
  | ps :: pss => ps ++ (separator ++ joined separator pss)

mutual

def Node.pieces : Node → List Piece
  | .literal v => v.pieces false
  | .rule x => [symbol .dollar, name x.toList]
  | .reference target => target.pieces
  | .assign target op expression =>
    target.pieces ++ spaced op.kind ++ inBrackets expression.isLoose expression.pieces
  | .binary left op right =>
    symbol .leftParen :: inBrackets left.isLooseOperand left.pieces ++ spaced op.kind ++
      inBrackets right.isLooseOperand right.pieces ++ [symbol .rightParen]
  | .conditional condition whenTrue whenFalse =>
    inBrackets condition.isLoose condition.pieces ++ spaced .question ++
      inBrackets (whenTrue.isConditional || whenTrue.isList) whenTrue.pieces ++
      if whenFalse.isMissing then []
      else spaced .pipe ++ inBrackets whenFalse.isList whenFalse.pieces
  | .silent expression =>
    symbol .leftBracket :: symbol .bang :: expression.pieces ++ [symbol .rightBracket]
  | .group members true => joined [gap] (partPieces members)
  | .group members false => joined [symbol .semicolon, gap] (memberPieces members)
  | .alternative _ => []
  | .definition _ => []
  | .missing => []

def partPieces : List Node → List (List Piece)
  | [] => []
  | n :: rest => n.elementPieces n.pieces :: partPieces rest

def memberPieces : List Node → List (List Piece)
  | [] => []
  | n :: rest => inBrackets n.isList n.pieces :: memberPieces rest

end

/-- The pieces of an element of an alternative; a line break is written as it is. -/
def Node.textPieces (n : Node) : List Piece :=
  if n.isLineBreak then [symbol .newline] else n.elementPieces n.pieces

/-- The pieces of a weight; a weight of one is not written. -/
def Value.weightPieces (v : Value) : List Piece :=
  if v.equal (.float 1) then []
  else
    match v.display with
    | .ok s => [gap, symbol .doubleColon, numeral s.toList]
    | .error _ => []

def Alternative.pieces (a : Alternative) : List Piece :=
  joined [gap] (a.elements.map Node.textPieces) ++ a.weight.weightPieces

def Rule.pieces (r : Rule) : List Piece :=
  joined (spaced .pipe) (r.alternatives.map Alternative.pieces)

def definitionPieces (key : String) (r : Rule) : List Piece :=
  [symbol .dollar, name key.toList] ++ spaced .define ++ r.pieces

def Grammar.pieces (g : Grammar) : List Piece :=
  joined [symbol .newline] (g.rules.map fun entry => definitionPieces entry.1 entry.2)

/-! ### The text of the pieces -/

theorem isMissing_of_fits {n : Node} {place : Place} (hf : n.fits place = true)
    (hplace : place ≠ .otherwise := by decide) : n.isMissing = false := by
  cases n with
  | missing => simp [Node.fits, hplace] at hf
  | _ => rfl

theorem text_inBrackets (needed : Bool) (ps : List Piece) (s : String) (h : text ps = s.toList) :
    text (inBrackets needed ps) = (Node.bracketIf needed s).toList := by
  cases needed
  · exact h
  · simp [inBrackets, Node.bracketIf, symbol, chars, TokenKind.symbol, h]

theorem text_joined (separator : List Piece) (pss : List (List Piece)) (sep : String)
    (parts : List String) (hs : text separator = sep.toList)
    (h : pss.map text = parts.map String.toList) :
    text (joined separator pss) = (sep.intercalate parts).toList := by
  rw [String.toList_intercalate, ← hs, ← h]
  induction pss generalizing parts with
  | nil => rfl
  | cons ps pss ih =>
    cases pss with
    | nil => simp [joined]
    | cons qs pss =>
      cases parts with
      | nil => cases h
      | cons part parts =>
        have hrest := ih parts (List.cons.inj h).2
        rw [List.map_cons, List.map_cons, List.intercalate_cons_cons, ← List.map_cons, ← hrest]
        simp [joined]

theorem literalSource_ok (v : Value) (inText : Bool) (hv : v.isLiteral = true)
    (hd : ∃ s, v.display = .ok s) :
    ∃ s, v.literalSource inText = .ok s ∧ text (v.pieces inText) = s.toList := by
  cases v with
  | text s => exact ⟨_, rfl, by simp [Value.pieces, text_literal]⟩
  | number n =>
    obtain ⟨s, hs⟩ := hd
    refine ⟨s, hs, ?_⟩
    simp only [Value.pieces, hs, text_signed]
  | _ => cases hv

theorem display_of_readsBack (v : Value) (h : v.readsBack = true) : ∃ s, v.display = .ok s := by
  cases v with
  | text s => exact ⟨s, rfl⟩
  | number n =>
    simp only [Value.readsBack] at h
    show ∃ s, n.display = .ok s
    cases hd : n.display with
    | ok s => exact ⟨s, rfl⟩
    | error fault => simp [hd] at h
  | _ => cases h

theorem elementSource_ok (n : Node) (s : String) (hf : n.fits .expression = true)
    (hd : ∀ v, n = .literal v → ∃ s, v.display = .ok s) (h : text n.pieces = s.toList) :
    ∃ t, n.elementSource s = .ok t ∧ text (n.elementPieces n.pieces) = t.toList := by
  cases n with
  | literal v => exact literalSource_ok v true hf (hd v rfl)
  | alternative a => cases hf
  | definition r => cases hf
  | missing => cases hf
  | _ => exact ⟨_, rfl, text_inBrackets _ _ s h⟩

mutual

theorem source_of_fits (n : Node) (place : Place) (hf : n.fits place = true)
    (hp : n.plain = true) (hm : n.isMissing = false) :
    ∃ s, n.source = .ok s ∧ text n.pieces = s.toList := by
  cases n with
  | literal v => exact literalSource_ok v false hf (display_of_readsBack v hp)
  | rule x => exact ⟨_, rfl, by simp [Node.pieces, TokenKind.symbol]⟩
  | reference target => exact ⟨_, rfl, text_reference target hf⟩
  | assign target op expression =>
    simp only [Node.fits, Bool.and_eq_true] at hf
    obtain ⟨⟨ht, hop⟩, he⟩ := hf
    obtain ⟨s, hs, htext⟩ := source_of_fits expression .expression he hp (isMissing_of_fits he)
    refine ⟨_, by rw [Node.source, hs]; rfl, ?_⟩
    simp [Node.pieces, text_spaced, text_reference target ht, (assignOp_kind op hop).1,
      text_inBrackets _ _ s htext]
  | binary left op right =>
    simp only [Node.fits, Node.plain, Bool.and_eq_true] at hf hp
    obtain ⟨⟨hl, hop⟩, hr⟩ := hf
    obtain ⟨l, hls, hl⟩ := source_of_fits left .operand hl hp.1 (isMissing_of_fits hl)
    obtain ⟨r, hrs, hr⟩ := source_of_fits right .operand hr hp.2 (isMissing_of_fits hr)
    refine ⟨_, by rw [Node.source, hls, hrs]; rfl, ?_⟩
    have hopen : TokenKind.leftParen.symbol = ['('] := rfl
    have hclose : TokenKind.rightParen.symbol = [')'] := rfl
    simp [Node.pieces, text_spaced, (binaryOp_kind op hop).1, hopen, hclose,
      text_inBrackets _ _ l hl, text_inBrackets _ _ r hr]
  | conditional condition whenTrue whenFalse =>
    simp only [Node.fits, Node.plain, Bool.and_eq_true] at hf hp
    obtain ⟨⟨hc, ht⟩, hfalse⟩ := hf
    obtain ⟨c, hcs, hc⟩ := source_of_fits condition .expression hc hp.1.1 (isMissing_of_fits hc)
    obtain ⟨t, hts, ht⟩ := source_of_fits whenTrue .branch ht hp.1.2 (isMissing_of_fits ht)
    cases hmissing : whenFalse.isMissing with
    | true =>
      refine ⟨_, by rw [Node.source, hcs, hts]; simp only [hmissing]; rfl, ?_⟩
      simp [Node.pieces, hmissing, text_spaced, TokenKind.symbol, text_inBrackets _ _ c hc,
        text_inBrackets _ _ t ht]
    | false =>
      obtain ⟨f, hfs, hfalse⟩ := source_of_fits whenFalse .otherwise hfalse hp.2 hmissing
      refine ⟨_, by rw [Node.source, hcs, hts, hfs]; simp only [hmissing]; rfl, ?_⟩
      simp [Node.pieces, hmissing, text_spaced, TokenKind.symbol, text_inBrackets _ _ c hc,
        text_inBrackets _ _ t ht, text_inBrackets _ _ f hfalse]
  | silent expression =>
    obtain ⟨s, hs, htext⟩ := source_of_fits expression .expression hf hp (isMissing_of_fits hf)
    refine ⟨_, by rw [Node.source, hs]; rfl, ?_⟩
    simp [Node.pieces, TokenKind.symbol, htext]
  | group members prose =>
    simp only [Node.fits, Node.plain, Bool.and_eq_true] at hf hp
    cases prose with
    | true =>
      obtain ⟨parts, hs, htext⟩ := proseSources_of_fits members hf.2 hp.1
      refine ⟨_, by rw [Node.source, hs]; rfl, ?_⟩
      exact text_joined _ _ _ _ rfl htext
    | false =>
      obtain ⟨parts, hs, htext⟩ := memberSources_of_fits members hf.2 hp.1
      refine ⟨_, by rw [Node.source, hs]; rfl, ?_⟩
      exact text_joined _ _ _ _ rfl htext
  | alternative a => cases hf
  | definition r => cases hf
  | missing => cases hm

theorem proseSources_of_fits (members : List Node) (hf : fitAll members = true)
    (hp : plainAll members = true) :
    ∃ parts, proseSources members = .ok parts ∧
      (partPieces members).map text = parts.map String.toList := by
  cases members with
  | nil => exact ⟨[], rfl, rfl⟩
  | cons n rest =>
    simp only [fitAll, plainAll, Bool.and_eq_true] at hf hp
    obtain ⟨s, hs, htext⟩ := source_of_fits n .expression hf.1 hp.1 (isMissing_of_fits hf.1)
    obtain ⟨t, ht, hpart⟩ := elementSource_ok n s hf.1 (fun v hv => by
      subst hv
      exact display_of_readsBack v hp.1) htext
    obtain ⟨parts, hparts, hrest⟩ := proseSources_of_fits rest hf.2 hp.2
    refine ⟨t :: parts, by rw [proseSources, hs]; simp only [bind, Except.bind, ht, hparts]; rfl, ?_⟩
    simp [partPieces, hpart, hrest]

theorem memberSources_of_fits (members : List Node) (hf : fitAll members = true)
    (hp : plainAll members = true) :
    ∃ parts, memberSources members = .ok parts ∧
      (memberPieces members).map text = parts.map String.toList := by
  cases members with
  | nil => exact ⟨[], rfl, rfl⟩
  | cons n rest =>
    simp only [fitAll, plainAll, Bool.and_eq_true] at hf hp
    obtain ⟨s, hs, htext⟩ := source_of_fits n .expression hf.1 hp.1 (isMissing_of_fits hf.1)
    obtain ⟨parts, hparts, hrest⟩ := memberSources_of_fits rest hf.2 hp.2
    refine ⟨Node.bracketIf n.isList s :: parts, by rw [memberSources, hs, hparts]; rfl, ?_⟩
    simp [memberPieces, text_inBrackets _ _ s htext, hrest]

end

/-! ### Alternatives, rules and grammars -/

theorem display_of_plainElement (n : Node) (hf : n.fits .expression = true)
    (hp : n.plainElement = true) : ∀ v, n = .literal v → ∃ s, v.display = .ok s := by
  rintro v rfl
  cases v with
  | text s => exact ⟨s, rfl⟩
  | number n =>
    simp only [Node.plainElement] at hp
    show ∃ s, n.display = .ok s
    cases hd : n.display with
    | ok s => exact ⟨s, rfl⟩
    | error fault => simp [hd] at hp
  | _ => cases hf

theorem plain_of_plainElement (n : Node) (hp : n.plainElement = true) :
    (∃ v, n = .literal v) ∨ n.plain = true := by
  cases n with
  | literal v => exact .inl ⟨v, rfl⟩
  | _ => exact .inr hp

theorem textSource_ok (n : Node) (hf : n.fits .expression = true) (hp : n.plainElement = true) :
    ∃ t, (if n.isLineBreak then .ok "\n" else (do n.elementSource (← n.source)) :
      Except Fault String) = .ok t ∧ text n.textPieces = t.toList := by
  unfold Node.textPieces
  cases hbreak : n.isLineBreak with
  | true => exact ⟨"\n", rfl, by simp [TokenKind.symbol]⟩
  | false =>
    have hsource : ∃ s, n.source = .ok s ∧ text n.pieces = s.toList := by
      rcases plain_of_plainElement n hp with ⟨v, rfl⟩ | hplain
      · exact literalSource_ok v false hf (display_of_plainElement _ hf hp v rfl)
      · exact source_of_fits n .expression hf hplain (isMissing_of_fits hf)
    obtain ⟨s, hs, htext⟩ := hsource
    obtain ⟨t, ht, hpieces⟩ := elementSource_ok n s hf (display_of_plainElement n hf hp) htext
    refine ⟨t, ?_, hpieces⟩
    rw [hs]
    exact ht

theorem elementSources_of_fits (elements : List Node) (hf : fitAll elements = true)
    (hp : elements.all Node.plainElement = true) :
    ∃ parts, elementSources elements = .ok parts ∧
      (elements.map Node.textPieces).map text = parts.map String.toList := by
  induction elements with
  | nil => exact ⟨[], rfl, rfl⟩
  | cons n rest ih =>
    simp only [fitAll, List.all_cons, Bool.and_eq_true] at hf hp
    obtain ⟨t, ht, htext⟩ := textSource_ok n hf.1 hp.1
    obtain ⟨parts, hparts, hrest⟩ := ih hf.2 hp.2
    refine ⟨t :: parts, ?_, by rw [List.map_cons, List.map_cons, List.map_cons, htext, hrest]⟩
    rw [elementSources]
    cases hb : n.isLineBreak <;>
    · simp only [hb, if_true, Bool.false_eq_true, if_false] at ht ⊢
      rw [ht, hparts]
      rfl

theorem weightSource_ok (v : Value) (s : String) (h : v.weightReadsBack = true) :
    ∃ t, (if v.equal (.float 1) then .ok s else (do return s ++ " ::" ++ (← v.display)) :
      Except Fault String) = .ok t ∧ s.toList ++ text v.weightPieces = t.toList := by
  unfold Value.weightPieces
  cases hone : v.equal (.float 1) with
  | true => exact ⟨s, rfl, by simp⟩
  | false =>
    have hd : ∃ w, v.display = .ok w := by
      unfold Value.weightReadsBack at h
      split at h
      next w =>
        have hone : (Value.float w).equal (.float 1) = false := hone
        rw [hone, Bool.false_or] at h
        show ∃ t, (Number.float w).display = .ok t
        split at h
        next t ht => exact ⟨t, ht⟩
        next => cases h
      next => cases h
    obtain ⟨w, hw⟩ := hd
    refine ⟨s ++ " ::" ++ w, by rw [hw]; rfl, ?_⟩
    have hcolons : TokenKind.doubleColon.symbol = [':', ':'] := rfl
    simp [hw, hcolons]

theorem alternativeSource_of_fits (a : Alternative) (hf : a.fits = true) (hp : a.plain = true) :
    ∃ s, a.source = .ok s ∧ text a.pieces = s.toList := by
  obtain ⟨elements, weight⟩ := a
  simp only [Alternative.fits, Alternative.plain, Bool.and_eq_true] at hf hp
  obtain ⟨parts, hparts, htext⟩ := elementSources_of_fits elements hf.1.1.1.1 hp.1
  obtain ⟨t, ht, hweight⟩ := weightSource_ok weight (" ".intercalate parts) hp.2
  refine ⟨t, ?_, ?_⟩
  · rw [Alternative.source, hparts]
    exact ht
  · rw [Alternative.pieces, text_append, text_joined [gap] _ " " parts rfl htext]
    exact hweight

theorem ruleSource_of_fits (r : Rule) (hf : r.fits = true)
    (hp : r.alternatives.all Alternative.plain = true) :
    ∃ s, r.source = .ok s ∧ text r.pieces = s.toList := by
  obtain ⟨_, alternatives⟩ := r
  simp only [Rule.fits, Bool.and_eq_true] at hf
  have hparts : ∃ parts, alternativeSources alternatives = .ok parts ∧
      (alternatives.map Alternative.pieces).map text = parts.map String.toList := by
    replace hf := hf.2
    replace hp : alternatives.all Alternative.plain = true := hp
    induction alternatives with
    | nil => exact ⟨[], rfl, rfl⟩
    | cons a rest ih =>
      simp only [List.all_cons, Bool.and_eq_true] at hf hp
      obtain ⟨s, hs, htext⟩ := alternativeSource_of_fits a hf.1 hp.1
      obtain ⟨parts, hparts, hrest⟩ := ih hf.2 hp.2
      refine ⟨s :: parts, by rw [alternativeSources, hs, hparts]; rfl, ?_⟩
      rw [List.map_cons, List.map_cons, List.map_cons, htext, hrest]
  obtain ⟨parts, hparts, htext⟩ := hparts
  refine ⟨" | ".intercalate parts, by rw [Rule.source, hparts]; rfl, ?_⟩
  exact text_joined _ _ _ _ rfl htext

theorem grammarSource_of_fits (g : Grammar) (hf : g.fits = true) (hp : g.plain = true) :
    ∃ s, g.source = .ok s ∧ text g.pieces = s.toList := by
  obtain ⟨rules⟩ := g
  simp only [Grammar.fits, Grammar.plain, Bool.and_eq_true] at hf hp
  replace hf := hf.2
  have hparts : ∃ parts, (rules.mapM fun entry : String × Rule => do
      return "$" ++ entry.1 ++ " := " ++ (← entry.2.source) : Except Fault (List String)) =
        .ok parts ∧ (rules.map fun entry => definitionPieces entry.1 entry.2).map text =
          parts.map String.toList := by
    induction rules with
    | nil => exact ⟨[], rfl, rfl⟩
    | cons entry rest ih =>
      simp only [List.all_cons, Bool.and_eq_true] at hf hp
      obtain ⟨s, hs, htext⟩ := ruleSource_of_fits entry.2 hf.1.2 hp.1
      obtain ⟨parts, hparts, hrest⟩ := ih hp.2 hf.2
      refine ⟨("$" ++ entry.1 ++ " := " ++ s) :: parts, ?_, ?_⟩
      · rw [List.mapM_cons, hs, hparts]
        rfl
      · rw [List.map_cons, List.map_cons, List.map_cons, hrest]
        simp [definitionPieces, text_spaced, TokenKind.symbol, htext]
  obtain ⟨parts, hparts, htext⟩ := hparts
  refine ⟨"\n".intercalate parts, by rw [Grammar.source, hparts]; rfl, ?_⟩
  exact text_joined _ _ _ _ rfl htext

end ProseGrammar
