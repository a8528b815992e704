import ProseGrammar.Proofs.Grammar.Legible

/-!
# Reading operands

What is written as one operand reads as that operand: a literal, a reference, and an expression in
brackets or parentheses, provided that the expression reads at the next inner level. Operators read
their operands in turn, a comparison without operators is a sum, a sum without operators a product,
and so on, so an operand alone reads at each of these levels.
-/

namespace ProseGrammar

open Piece

variable {inner : Parser.Inner}

/-! ### Literals -/

theorem reads_lift {α β : Type} (x : Except Fault α) (next : α → Parser β) (ps rest : List Piece)
    (a : α) (b : β) (hx : x = .ok a) (h : Reads (next a) ps rest b) :
    Reads ((liftM x : Parser α) >>= next) ps rest b := by
  subst hx
  exact h

theorem numberOfText?_of_ofPlainNumeral? (cs : List Char) (n : Number)
    (h : Number.ofPlainNumeral? cs = some n) :
    Value.numberOfText? (String.ofList cs) = .ok (some n) := by
  unfold Number.ofPlainNumeral? at h
  split at h
  next =>
    split at h
    next number hn => rw [hn, h]
    next => cases h
  next => cases h

theorem word_of_isPlainNumeral (cs : List Char) (h : Text.isPlainNumeral cs = true) :
    word cs = numeral cs := by
  rw [word, isName_of_isPlainNumeral cs h]
  rfl

theorem reads_numeral (negative : Bool) (cs : List Char) (n : Number)
    (h : Number.ofPlainNumeral? cs = some n) (rest : List Piece) :
    Reads (Parser.Inner.numeral negative) [numeral cs] rest
      (.literal (.number (if negative then n.neg else n))) := by
  unfold Parser.Inner.numeral
  refine reads_advance _ .number cs cs [] rest _ (by decide) fun p => ?_
  refine reads_lift _ _ _ _ (some n) _ (numberOfText?_of_ofPlainNumeral? cs n h) ?_
  exact reads_pure _ rest

theorem reads_primary_number (cs : List Char) (n : Number) (h : Number.ofSource? cs = some n)
    (rest : List Piece) :
    Reads inner.primary (signed cs) rest (.literal (.number n)) := by
  unfold Number.ofSource? at h
  split at h
  next digits =>
    obtain ⟨m, hm, rfl⟩ := Option.map_eq_some_iff.mp h
    have hplain := isPlainNumeral_of_ofPlainNumeral? digits m hm
    show Reads inner.primary [symbol .minus, word digits] rest _
    rw [word_of_isPlainNumeral digits hplain]
    refine reads_get _ _ _ _ fun c hc => ?_
    have hk : c.kind = .minus := c.kind_of_before _ hc
    have hk' : c.kindAt 1 = .number := c.kindAt_of_before _ hc 1
    simp only [hk, hk']
    refine reads_advance _ .minus _ _ _ rest _ (by decide) fun p => ?_
    exact reads_numeral true digits m hm rest
  next hno =>
    have hsigned : signed cs = [word cs] := by
      unfold signed
      split
      next digits => exact absurd rfl (hno digits)
      next => rfl
    have hplain := isPlainNumeral_of_ofPlainNumeral? cs n h
    rw [hsigned, word_of_isPlainNumeral cs hplain]
    refine reads_get _ _ _ _ fun c hc => ?_
    have hk : c.kind = .number := c.kind_of_before _ hc
    simp only [hk]
    exact reads_numeral false cs n h rest

theorem reads_primary_text (s : String) (h : Text.isPlainNumeral s.toList = false)
    (rest : List Piece) :
    Reads inner.primary [literal s false] rest (.literal (.text s)) := by
  have htoken : ∃ kind cs, (kind = .identifier ∨ kind = .string) ∧
      literal s false = token kind s.toList cs := by
    unfold literal
    split
    next hw =>
      have hname : Text.isName s.toList = true := by
        simpa [Text.isBareWord, h] using hw
      exact ⟨.identifier, s.toList, .inl rfl, by rw [word, if_pos hname]; rfl⟩
    next => exact ⟨.string, _, .inr rfl, rfl⟩
  obtain ⟨kind, cs, hkind, hpiece⟩ := htoken
  rw [hpiece]
  refine reads_get _ _ _ _ fun c hc => ?_
  have hk : c.kind = kind := c.kind_of_before _ hc
  have htake : Reads (Parser.advance >>= fun t => pure (Node.literal (.text t.value)))
      [token kind s.toList cs] rest (.literal (.text s)) := by
    refine reads_advance _ kind s.toList cs [] rest _ ?_ fun p => ?_
    · rcases hkind with rfl | rfl <;> decide
    · rw [String.ofList_toList]
      exact reads_pure _ rest
  rcases hkind with rfl | rfl
  · simp only [hk]
    exact htake
  · simp only [hk]
    exact htake

theorem reads_primary_literal (v : Value) (hv : v.readsBack = true) (rest : List Piece) :
    Reads inner.primary (v.pieces false) rest (.literal v) := by
  cases v with
  | text s => exact reads_primary_text s (by simpa [Value.readsBack] using hv) rest
  | number n =>
    obtain ⟨s, hs, hsource⟩ := display_of_number_readsBack n hv
    rw [pieces_number n false s hs]
    exact reads_primary_number s.toList n hsource rest
  | _ => cases hv

/-! ### References -/

/-- The place that a token makes of the name before it. -/
def placeBefore (kind : TokenKind) : Place :=
  if kind.makesVariable then .operand else .expression

theorem reads_dollar_knowledge (first : String) (segments : List String) (rest : List Piece)
    (h : (Reference.mk (first :: segments) true).isPath = true) (hr : ¬StartsFlush rest) :
    Reads Parser.dollar
      (symbol .dollar :: symbol .dot :: name first.toList :: segmentPieces segments) rest
      (.reference ⟨first :: segments, true⟩) := by
  simp only [Reference.isPath, List.all_cons, Bool.and_eq_true, List.all_eq_true] at h
  unfold Parser.dollar
  refine reads_accept _ .dollar _ _ _ _ _ (by decide) ?_
  refine reads_expect _ .dot _ _ _ _ _ _ (by decide) fun p => ?_
  have hpath := reads_path (fun _ path => pure (Node.reference ⟨path, true⟩)) .expectedProperty
    first segments [] rest (.reference ⟨first :: segments, true⟩) h.2.1 h.2.2 hr
    fun _ => reads_pure _ rest
  simpa using hpath

/-- A name alone reads as a variable before the tokens that say so, and as a rule elsewhere. -/
theorem reads_dollar_variable (first : String) (segments : List String) (rest : List Piece)
    (h : (Reference.mk (first :: segments) false).isPath = true) (hr : ¬StartsFlush rest) :
    Reads Parser.dollar (name first.toList :: segmentPieces segments) rest
      (Node.reread (placeBefore (kindAt rest 0)) (.reference ⟨first :: segments, false⟩)) := by
  simp only [Reference.isPath, List.all_cons, Bool.and_eq_true, List.all_eq_true] at h
  unfold Parser.dollar
  refine reads_accept_other _ .dollar _ _ _ TokenKind.noConfusion ?_
  simp only [Bool.false_eq_true, if_false]
  rw [← List.append_nil (name _ :: _)]
  refine reads_path _ _ first segments [] rest _ h.2.1 h.2.2 hr fun p => ?_
  refine reads_get _ _ _ _ fun c hc => ?_
  rw [c.kind_of_before _ hc, List.nil_append]
  cases segments with
  | nil =>
    cases hk : (kindAt rest 0).makesVariable <;>
    · rw [placeBefore, hk]
      exact reads_pure _ rest
  | cons s segments => exact reads_pure _ rest

theorem reads_primary_dollar (ps rest : List Piece) (n : Node)
    (h : Reads Parser.dollar ps rest n) : Reads inner.primary (symbol .dollar :: ps) rest n := by
  refine reads_get _ _ _ _ fun c hc => ?_
  have hk : c.kind = .dollar := c.kind_of_before _ hc
  simp only [hk]
  exact reads_advance _ .dollar _ _ _ rest _ (by decide) fun p => h

theorem reads_primary_reference (target : Reference) (h : target.isPath = true)
    (rest : List Piece) (hr : ¬StartsFlush rest) :
    Reads inner.primary target.pieces rest
      (Node.reread (placeBefore (kindAt rest 0)) (.reference target)) := by
  obtain ⟨path, isKnowledge⟩ := target
  cases path with
  | nil => cases h
  | cons first segments =>
    cases isKnowledge with
    | true =>
      exact reads_primary_dollar _ rest _ (reads_dollar_knowledge first segments rest h hr)
    | false =>
      exact reads_primary_dollar _ rest _ (reads_dollar_variable first segments rest h hr)

theorem reread_rule (x : String) (place : Place) :
    Node.reread place (.reference ⟨[x], false⟩) = Node.reread place (.rule x) := by
  cases place <;> rfl

theorem reads_dollar_rule (x : String) (h : Text.isName x.toList = true) (rest : List Piece)
    (hr : ¬StartsFlush rest) :
    Reads Parser.dollar [name x.toList] rest
      (Node.reread (placeBefore (kindAt rest 0)) (.rule x)) := by
  have hpath : (Reference.mk [x] false).isPath = true := by
    simp [Reference.isPath, h]
  rw [← reread_rule]
  exact reads_dollar_variable x [] rest hpath hr

/-! ### Brackets and parentheses -/

namespace Parser.Inner

/-- Reads the expressions of a bracket whose start, and mark of silence if any, are taken. -/
def contents (inner : Inner) (silent : Bool) : Parser Node := do
  let first ← inner.expression
  let others ← repeatWhile (fun c => c.kind = .semicolon) do
    let _ ← advance
    inner.expression
  let _ ← expect .rightBracket .expectedClosingBracket
  let node := if others.isEmpty then first else .group (first :: others) false
  return if silent then .silent node else node

theorem bracket_eq (inner : Inner) : inner.bracket = accept .bang >>= inner.contents := rfl

end Parser.Inner

def Node.silentIf (silent : Bool) (n : Node) : Node :=
  if silent then .silent n else n

theorem reads_contents (silent : Bool) (ps qs rest : List Piece) (first : Node)
    (others : List Node) (hf : Reads inner.expression ps (qs ++ symbol .rightBracket :: rest) first)
    (ho : ReadsAll (fun c => c.kind = .semicolon) (Parser.advance >>= fun _ => inner.expression)
      (symbol .rightBracket :: rest) qs others) :
    Reads (inner.contents silent) (ps ++ (qs ++ [symbol .rightBracket])) rest
      (Node.silentIf silent (if others.isEmpty then first else .group (first :: others) false)) := by
  refine reads_bind _ _ ps _ rest first _ (by simpa using hf) ?_
  refine reads_bind _ _ qs _ rest others _ (reads_repeatWhile _ _ _ _ _ ho) ?_
  exact reads_expect _ .rightBracket _ _ _ [] rest _ (by decide) fun p => reads_pure _ rest

theorem reads_contents_single (silent : Bool) (ps rest : List Piece) (n : Node)
    (h : Reads inner.expression ps (symbol .rightBracket :: rest) n) :
    Reads (inner.contents silent) (ps ++ [symbol .rightBracket]) rest (Node.silentIf silent n) := by
  have hstop : ReadsAll (fun c => c.kind = .semicolon)
      (Parser.advance >>= fun _ => inner.expression) (symbol .rightBracket :: rest) [] [] := by
    refine .nil fun c hc => ?_
    have hk : c.kind = .rightBracket := c.kind_of_before _ hc
    simp [hk]
  exact reads_contents silent ps [] rest n [] h hstop

theorem reads_bracket (ps rest : List Piece) (n : Node) (hopens : (kindAt ps 0).opens = true)
    (h : Reads (inner.contents false) ps rest n) : Reads inner.bracket ps rest n := by
  rw [Parser.Inner.bracket_eq]
  refine reads_accept_other _ .bang ps rest n ?_ h
  intro hbang
  have hps := opens_append ps rest hopens
  rw [hbang] at hps
  cases hps

theorem reads_primary_bracket (ps rest : List Piece) (n : Node)
    (h : Reads inner.bracket ps rest n) : Reads inner.primary (symbol .leftBracket :: ps) rest n := by
  refine reads_get _ _ _ _ fun c hc => ?_
  have hk : c.kind = .leftBracket := c.kind_of_before _ hc
  simp only [hk]
  exact reads_advance _ .leftBracket _ _ _ rest _ (by decide) fun p => h

theorem reads_primary_parentheses (ps rest : List Piece) (n : Node)
    (h : Reads inner.expression ps (symbol .rightParen :: rest) n) :
    Reads inner.primary (symbol .leftParen :: ps ++ [symbol .rightParen]) rest n := by
  refine reads_get _ _ _ _ fun c hc => ?_
  have hk : c.kind = .leftParen := c.kind_of_before _ hc
  simp only [hk]
  refine reads_advance _ .leftParen _ _ _ rest _ (by decide) fun p => ?_
  refine reads_bind _ _ ps _ rest n _ h ?_
  exact reads_expect _ .rightParen _ _ _ [] rest _ (by decide) fun p => reads_pure _ rest

/-! ### Operators -/

theorem reads_chain_single (isOperator : TokenKind → Bool) (operand : Parser Node)
    (ps rest : List Piece) (n : Node) (h : Reads operand ps rest n)
    (hr : isOperator (kindAt rest 0) = false) :
    Reads (Parser.Inner.chain isOperator operand) ps rest n := by
  unfold Parser.Inner.chain
  rw [← List.append_nil ps]
  refine reads_bind _ _ ps [] rest n _ h ?_
  rw [← List.append_nil ([] : List Piece)]
  refine reads_bind _ _ [] [] rest [] _ (reads_repeatWhile _ _ _ _ _ (.nil fun c hc => ?_)) ?_
  · rw [c.kind_of_before _ hc]
    exact hr
  · exact reads_pure _ rest

theorem reads_chain_pair (isOperator : TokenKind → Bool) (operand : Parser Node) (op : BinaryOp)
    (ps qs rest : List Piece) (l r : Node) (hop : op.isKnown = true)
    (hk : isOperator op.kind = true)
    (hl : Reads operand ps (spaced op.kind ++ qs ++ rest) l) (hr : Reads operand qs rest r)
    (hrest : isOperator (kindAt rest 0) = false) :
    Reads (Parser.Inner.chain isOperator operand) (ps ++ (spaced op.kind ++ qs)) rest
      (.binary l op r) := by
  unfold Parser.Inner.chain
  refine reads_bind _ _ ps _ rest l _ hl ?_
  rw [← List.append_nil (spaced op.kind ++ qs)]
  refine reads_bind _ _ _ [] rest [(op, r)] _ (reads_repeatWhile _ _ _ _ _ ?_) (reads_pure _ rest)
  rw [← List.append_nil (spaced op.kind ++ qs)]
  refine .cons _ [] (op, r) [] (by simp [spaced, symbol, kinds]) (fun c hc => ?_) ?_
    (.nil fun c hc => ?_)
  · rw [c.kind_of_before _ hc]
    exact hk
  · refine reads_gap _ _ _ _ (reads_advance _ op.kind _ _ _ _ _ ?_ fun p => ?_)
    · cases op <;> first | decide | cases hop
    · rw [← List.append_nil qs]
      refine reads_gap _ _ _ _ (reads_bind _ _ qs [] _ r _ hr ?_)
      rw [(binaryOp_kind op hop).2]
      exact reads_pure _ rest
  · rw [c.kind_of_before _ hc]
    exact hrest

/-- Whether a token is an operator between operands. -/
def TokenKind.isOperator (kind : TokenKind) : Bool :=
  kind.isComparison || kind.isAdditive || kind.isMultiplicative

theorem reads_comparison_single (ps rest : List Piece) (n : Node)
    (h : Reads inner.primary ps rest n) (hr : (kindAt rest 0).isOperator = false) :
    Reads inner.comparison ps rest n := by
  simp only [TokenKind.isOperator, Bool.or_eq_false_iff] at hr
  obtain ⟨⟨hcomparison, hadditive⟩, hmultiplicative⟩ := hr
  have hproduct := reads_chain_single TokenKind.isMultiplicative _ ps rest n h hmultiplicative
  have hsum := reads_chain_single TokenKind.isAdditive _ ps rest n hproduct hadditive
  exact reads_chain_single TokenKind.isComparison _ ps rest n hsum hcomparison

/-- Two operands with an operator between them read as one comparison, sum or product. -/
theorem reads_comparison_pair (op : BinaryOp) (hop : op.isKnown = true) (ps qs rest : List Piece)
    (l r : Node) (hl : Reads inner.primary ps (spaced op.kind ++ qs ++ rest) l)
    (hr : Reads inner.primary qs rest r) (hrest : (kindAt rest 0).isOperator = false) :
    Reads inner.comparison (ps ++ (spaced op.kind ++ qs)) rest (.binary l op r) := by
  simp only [TokenKind.isOperator, Bool.or_eq_false_iff] at hrest
  obtain ⟨⟨hcomparison, hadditive⟩, hmultiplicative⟩ := hrest
  have hkind : kindAt (spaced op.kind ++ qs ++ rest) 0 = op.kind := rfl
  have hproduct : ∀ ps n rest, Reads inner.primary ps rest n →
      (kindAt rest 0).isMultiplicative = false →
      Reads (Parser.Inner.chain TokenKind.isMultiplicative inner.primary) ps rest n :=
    fun ps n rest h hm => reads_chain_single TokenKind.isMultiplicative _ ps rest n h hm
  have hsum : ∀ ps n rest, Reads (Parser.Inner.chain TokenKind.isMultiplicative inner.primary)
      ps rest n → (kindAt rest 0).isAdditive = false →
      Reads (Parser.Inner.chain TokenKind.isAdditive
        (Parser.Inner.chain TokenKind.isMultiplicative inner.primary)) ps rest n :=
    fun ps n rest h ha => reads_chain_single TokenKind.isAdditive _ ps rest n h ha
  by_cases hm : op.kind.isMultiplicative = true
  · -- a product
    have hpair := reads_chain_pair TokenKind.isMultiplicative inner.primary op ps qs rest l r hop hm
      hl hr hmultiplicative
    exact reads_chain_single TokenKind.isComparison _ _ rest _
      (hsum _ _ rest hpair hadditive) hcomparison
  have hl' := hproduct ps l _ hl (by rw [hkind]; simpa using hm)
  have hr' := hproduct qs r rest hr hmultiplicative
  by_cases ha : op.kind.isAdditive = true
  · -- a sum
    have hpair := reads_chain_pair TokenKind.isAdditive _ op ps qs rest l r hop ha hl' hr' hadditive
    exact reads_chain_single TokenKind.isComparison _ _ rest _ hpair hcomparison
  · -- a comparison
    have hc : op.kind.isComparison = true := by
      cases op <;> first | rfl | exact absurd rfl hm | exact absurd rfl ha
    have hl'' := hsum ps l _ hl' (by rw [hkind]; simpa using ha)
    have hr'' := hsum qs r rest hr' hadditive
    exact reads_chain_pair TokenKind.isComparison _ op ps qs rest l r hop hc hl'' hr'' hcomparison

end ProseGrammar
