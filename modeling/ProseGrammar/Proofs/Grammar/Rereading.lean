import ProseGrammar.Proofs.Grammar.Operands

/-!
# Reading source text back

The source text of a node reads as the node again. The induction is on the node; for a node it says
how its text reads in every position that an expression may have, at all levels of nesting from some
level on. Each constructor adds at most two levels, one for brackets or parentheses and one for the
expression inside.
-/

namespace ProseGrammar

open Piece

variable {inner : Parser.Inner}

/-! ### Assignments -/

theorem placeBefore_of_not_makesVariable {kind : TokenKind} (h : kind.makesVariable = false) :
    placeBefore kind = .expression := by
  rw [placeBefore, h]
  rfl

theorem isOperator_of_not_makesVariable {kind : TokenKind} (h : kind.makesVariable = false) :
    kind.isOperator = false := by
  cases kind <;> first | rfl | cases h

theorem reads_assignment_of_comparison (ps rest : List Piece) (n : Node)
    (h : Reads inner.comparison ps rest n) (hr : (kindAt rest 0).isAssignment = false) :
    Reads inner.readAssignment ps rest n := by
  rw [← List.append_nil ps]
  refine reads_bind _ _ ps [] rest n _ h (reads_get _ _ _ _ fun c hc => ?_)
  have hk : c.kind.isAssignment = false := by
    rw [c.kind_of_before _ hc]
    exact hr
  simp only [hk, Bool.false_eq_true, if_false]
  exact reads_pure _ rest

theorem reads_assignment_single (ps rest : List Piece) (n : Node)
    (h : Reads inner.primary ps rest n) (hr : (kindAt rest 0).makesVariable = false) :
    Reads inner.readAssignment ps rest n := by
  have hcomparison := reads_comparison_single ps rest n h (isOperator_of_not_makesVariable hr)
  refine reads_assignment_of_comparison ps rest n hcomparison ?_
  cases hkind : kindAt rest 0 <;> first | rfl | (rw [hkind] at hr; cases hr)

theorem reads_expression_of_assignment (ps rest : List Piece) (n : Node)
    (h : Reads inner.readAssignment ps rest n) (hr : kindAt rest 0 ≠ .question) :
    Reads inner.readExpression ps rest n := by
  rw [← List.append_nil ps]
  refine reads_bind _ _ ps [] rest n _ h ?_
  exact reads_accept_other _ .question [] rest n hr (reads_pure _ rest)

theorem reads_finishAssignment (target : Reference) (op : AssignOp) (hop : op.isKnown = true)
    (qs rest : List Piece) (v : Node) (h : Reads inner.assignment qs rest v) :
    Reads (inner.finishAssignment target) (spaced op.kind ++ qs) rest (.assign target op v) := by
  refine reads_gap _ _ _ _ (reads_advance _ op.kind _ _ _ _ _ ?_ fun p => ?_)
  · cases op <;> exact TokenKind.noConfusion
  · refine reads_gap _ qs rest _ ?_
    rw [← List.append_nil qs]
    refine reads_bind _ _ qs [] rest v _ h ?_
    rw [(assignOp_kind op hop).2.1]
    exact reads_pure _ rest

theorem reads_assignment (target : Reference) (ht : target.isPath = true) (op : AssignOp)
    (hop : op.isKnown = true) (qs rest : List Piece) (v : Node)
    (h : Reads inner.assignment qs rest v) :
    Reads inner.readAssignment (target.pieces ++ (spaced op.kind ++ qs)) rest
      (.assign target op v) := by
  have hkind : (kindAt (spaced op.kind ++ qs ++ rest) 0) = op.kind := rfl
  have htarget := @reads_primary_reference inner target ht (spaced op.kind ++ qs ++ rest)
    (by simp [spaced, StartsFlush])
  have hplace : placeBefore op.kind = .operand := by
    cases op <;> rfl
  have hreread : Node.reread .operand (.reference target) = .reference target := by
    simp [Node.reread]
  rw [hkind, hplace, hreread] at htarget
  have hcomparison := reads_comparison_single _ _ _ htarget (by rw [hkind]; cases op <;> rfl)
  refine reads_bind _ _ _ _ rest _ _ hcomparison (reads_get _ _ _ _ fun c hc => ?_)
  have hk : c.kind.isAssignment = true := by
    rw [c.kind_of_before _ hc, hkind]
    exact (assignOp_kind op hop).2.2
  simp only [hk, if_true]
  exact reads_finishAssignment target op hop qs rest v h

/-! ### Branches -/

theorem isBranchText_of_opens {kind : TokenKind} (h : kind.opens = true) :
    kind.isBranchText = false ∧ kind.endsBranch = false ∧ kind ≠ .question := by
  cases kind <;> first | exact ⟨rfl, rfl, TokenKind.noConfusion⟩ | cases h

theorem reads_branchPart_value (ps rest : List Piece) (n : Node)
    (hopens : (kindAt ps 0).opens = true) (h : Reads inner.readAssignment ps rest n) :
    Reads inner.branchPart ps rest n := by
  refine reads_get _ _ _ _ fun c hc => ?_
  have hk : c.kind.isBranchText = false := by
    rw [c.kind_of_before _ hc]
    exact (isBranchText_of_opens (opens_append ps rest hopens)).1
  simp only [hk, Bool.false_eq_true, if_false]
  exact h

theorem punctuation_cases (s : String) (h : Text.isBarePunctuation s = true) :
    ∃ kind, kind.isBranchText = true ∧ kind.makesVariable = false ∧ kind.endsBranch = false ∧
      kind ≠ .question ∧ kind ≠ .endOfText ∧ punctuation s = token kind s.toList s.toList := by
  rcases isBarePunctuation_cases s h with rfl | rfl | rfl | rfl
  · exact ⟨.dot, by decide, by decide, by decide, by decide, by decide, rfl⟩
  · exact ⟨.comma, by decide, by decide, by decide, by decide, by decide, rfl⟩
  · exact ⟨.bang, by decide, by decide, by decide, by decide, by decide, rfl⟩
  · exact ⟨.colon, by decide, by decide, by decide, by decide, by decide, rfl⟩

theorem reads_branchPart_punctuation (s : String) (h : Text.isBarePunctuation s = true)
    (rest : List Piece) :
    Reads inner.branchPart [punctuation s] rest (.literal (.text s)) := by
  obtain ⟨kind, htext, -, -, -, hend, hpiece⟩ := punctuation_cases s h
  rw [hpiece]
  refine reads_get _ _ _ _ fun c hc => ?_
  have hk : c.kind.isBranchText = true := by
    rw [c.kind_of_before _ hc]
    exact htext
  simp only [hk, if_true]
  refine reads_advance _ kind _ _ [] rest _ hend fun p => ?_
  rw [String.ofList_toList]
  exact reads_pure _ rest

/-- What a branch of the given parts is. -/
def branchOf : List Node → Node
  | [] => .missing
  | [part] => part
  | parts => .group parts true

theorem reads_branch (before others : List Node) (ps rest : List Piece)
    (hne : before ++ others ≠ [])
    (h : ReadsAll (fun c => !c.kind.endsBranch) inner.branchPart rest ps others) :
    Reads (inner.branch before) ps rest (branchOf (before ++ others)) := by
  rw [← List.append_nil ps]
  refine reads_bind _ _ ps [] rest others _ (reads_repeatWhile _ _ _ _ _ h) ?_
  match hparts : before ++ others with
  | [] => exact absurd hparts hne
  | [part] => exact reads_pure _ rest
  | first :: second :: parts => exact reads_pure _ rest

/-! ### Expressions in all positions -/

open Parser.Inner in
/-- An expression reads back at all levels from `d` on: as it stands where an operand may be, in
brackets if need be where a value or a member of a list may be, and before a closing bracket. -/
structure ReadsBack (d : Nat) (n : Node) : Prop where
  opens : (kindAt n.pieces 0).opens = true
  primary : n.isLooseOperand = false → ∀ e, d ≤ e → ∀ rest, ¬StartsFlush rest →
    Reads (level e).primary n.pieces rest (n.reread (placeBefore (kindAt rest 0)))
  value : ∀ e, d ≤ e → ∀ rest, ¬StartsFlush rest → (kindAt rest 0).makesVariable = false →
    Reads (level e).readAssignment (inBrackets n.isLoose n.pieces) rest (n.reread .expression)
  member : ∀ e, d ≤ e → ∀ rest, ¬StartsFlush rest → (kindAt rest 0).endsBranch = true →
    kindAt rest 0 ≠ .pipe → kindAt rest 0 ≠ .rightParen →
    Reads (level e).readExpression (inBrackets n.isList n.pieces) rest (n.reread .expression)
  contents : ∀ e, d ≤ e → ∀ silent rest,
    Reads ((level e).contents silent) (n.pieces ++ [symbol .rightBracket]) rest
      (Node.silentIf silent (n.reread .expression))

theorem readsBack_mono (d e : Nat) (hde : d ≤ e) (n : Node) (h : ReadsBack d n) : ReadsBack e n :=
  ⟨h.opens, fun hn f hf => h.primary hn f (Nat.le_trans hde hf),
    fun f hf => h.value f (Nat.le_trans hde hf), fun f hf => h.member f (Nat.le_trans hde hf),
    fun f hf => h.contents f (Nat.le_trans hde hf)⟩

theorem reread_of_loose (n : Node) (h : n.isLooseOperand = true) (place : Place) :
    n.reread place = n.reread .expression := by
  cases n <;> first | rfl | cases h

theorem isLoose_of_isLooseOperand (n : Node) (h : n.isLooseOperand = false) :
    n.isLoose = false ∧ n.isList = false := by
  cases n <;> first | exact ⟨rfl, rfl⟩ | cases h

theorem endsBranch_facts {kind : TokenKind} (h : kind.endsBranch = true)
    (hparen : kind ≠ .rightParen) : kind.makesVariable = false ∧ kind ≠ .question := by
  cases kind <;> first | exact absurd rfl hparen | exact ⟨rfl, TokenKind.noConfusion⟩ | cases h

theorem reads_inBrackets (n : Node) (rest : List Piece) (hopens : (kindAt n.pieces 0).opens = true)
    (h : Reads (inner.contents false) (n.pieces ++ [symbol .rightBracket]) rest
      (n.reread .expression)) :
    Reads inner.primary (inBrackets true n.pieces) rest (n.reread .expression) :=
  reads_primary_bracket _ rest _ (reads_bracket _ rest _ (opens_append _ _ hopens) h)

/-- What reads as an expression one level further in reads as the contents of brackets. -/
theorem contents_of_member (d : Nat) (n : Node)
    (h : ∀ e, d ≤ e → ∀ rest, ¬StartsFlush rest → (kindAt rest 0).endsBranch = true →
      kindAt rest 0 ≠ .pipe → kindAt rest 0 ≠ .rightParen →
      Reads (Parser.Inner.level e).readExpression n.pieces rest (n.reread .expression)) :
    ∀ e, d + 1 ≤ e → ∀ silent rest,
      Reads ((Parser.Inner.level e).contents silent) (n.pieces ++ [symbol .rightBracket]) rest
        (Node.silentIf silent (n.reread .expression)) := by
  intro e he silent rest
  obtain ⟨e, rfl⟩ : ∃ f, e = f + 1 := ⟨e - 1, by omega⟩
  refine reads_contents_single silent n.pieces rest _ (h e (by omega) _ ?_ rfl ?_ ?_)
  · exact TokenKind.noConfusion
  · exact TokenKind.noConfusion
  · exact TokenKind.noConfusion

theorem readsBack_of_value (d : Nat) (n : Node) (hn : n.isLoose = false)
    (hopens : (kindAt n.pieces 0).opens = true)
    (hprimary : n.isLooseOperand = false → ∀ e, d ≤ e → ∀ rest, ¬StartsFlush rest →
      Reads (Parser.Inner.level e).primary n.pieces rest
        (n.reread (placeBefore (kindAt rest 0))))
    (hvalue : ∀ e, d ≤ e → ∀ rest, ¬StartsFlush rest → (kindAt rest 0).makesVariable = false →
      Reads (Parser.Inner.level e).readAssignment n.pieces rest (n.reread .expression)) :
    ReadsBack (d + 1) n := by
  have hlist : n.isList = false := by
    cases n <;> first | rfl | cases hn
  have hmember : ∀ e, d ≤ e → ∀ rest, ¬StartsFlush rest → (kindAt rest 0).endsBranch = true →
      kindAt rest 0 ≠ .pipe → kindAt rest 0 ≠ .rightParen →
      Reads (Parser.Inner.level e).readExpression n.pieces rest (n.reread .expression) := by
    intro e he rest hflush hends _ hparen
    obtain ⟨hvariable, hquestion⟩ := endsBranch_facts hends hparen
    exact reads_expression_of_assignment _ rest _ (hvalue e he rest hflush hvariable) hquestion
  refine ⟨hopens, fun h e he => hprimary h e (by omega), fun e he => ?_, fun e he => ?_, ?_⟩
  · rw [hn]
    exact hvalue e (by omega)
  · rw [hlist]
    exact hmember e (by omega)
  · exact contents_of_member d n hmember

theorem readsBack_of_primary (d : Nat) (n : Node) (hn : n.isLooseOperand = false)
    (hopens : (kindAt n.pieces 0).opens = true)
    (h : ∀ e, d ≤ e → ∀ rest, ¬StartsFlush rest →
      Reads (Parser.Inner.level e).primary n.pieces rest
        (n.reread (placeBefore (kindAt rest 0)))) : ReadsBack (d + 1) n := by
  refine readsBack_of_value d n (isLoose_of_isLooseOperand n hn).1 hopens (fun _ => h) ?_
  intro e he rest hflush hvariable
  have hprimary := h e he rest hflush
  rw [placeBefore_of_not_makesVariable hvariable] at hprimary
  exact reads_assignment_single _ rest _ hprimary hvariable

theorem readsBack_of_contents (d : Nat) (n : Node) (hn : n.isLoose = true)
    (hopens : (kindAt n.pieces 0).opens = true)
    (hcontents : ∀ e, d ≤ e → ∀ silent rest,
      Reads ((Parser.Inner.level e).contents silent) (n.pieces ++ [symbol .rightBracket]) rest
        (Node.silentIf silent (n.reread .expression)))
    (hmember : n.isList = false → ∀ e, d ≤ e → ∀ rest, ¬StartsFlush rest →
      (kindAt rest 0).endsBranch = true → kindAt rest 0 ≠ .pipe → kindAt rest 0 ≠ .rightParen →
      Reads (Parser.Inner.level e).readExpression n.pieces rest (n.reread .expression)) :
    ReadsBack d n := by
  have hloose : n.isLooseOperand = true := by
    cases n <;> first | rfl | cases hn
  have hvalue : ∀ e, d ≤ e → ∀ rest, (kindAt rest 0).makesVariable = false →
      Reads (Parser.Inner.level e).readAssignment (inBrackets true n.pieces) rest
        (n.reread .expression) := fun e he rest hvariable =>
    reads_assignment_single _ rest _ (reads_inBrackets n rest hopens (hcontents e he false rest))
      hvariable
  refine ⟨hopens, fun h => ?_, fun e he rest _ hvariable => ?_, ?_, hcontents⟩
  · rw [hloose] at h
    cases h
  · rw [hn]
    exact hvalue e he rest hvariable
  · intro e he rest hflush hends hpipe hparen
    cases hlist : n.isList with
    | false => exact hmember hlist e he rest hflush hends hpipe hparen
    | true =>
      obtain ⟨hvariable, hquestion⟩ := endsBranch_facts hends hparen
      exact reads_expression_of_assignment _ rest _ (hvalue e he rest hvariable) hquestion

theorem reads_operand (d : Nat) (n : Node) (h : ReadsBack d n) (e : Nat) (he : d ≤ e)
    (rest : List Piece) (hflush : ¬StartsFlush rest) (hk : (kindAt rest 0).makesVariable = true) :
    Reads (Parser.Inner.level e).primary (inBrackets n.isLooseOperand n.pieces) rest
      (n.reread .operand) := by
  cases hloose : n.isLooseOperand with
  | true =>
    rw [reread_of_loose n hloose]
    exact reads_inBrackets n rest h.opens (h.contents e he false rest)
  | false =>
    have hprimary := h.primary hloose e he rest hflush
    have hplace : placeBefore (kindAt rest 0) = .operand := by
      rw [placeBefore, hk]
      rfl
    rwa [hplace] at hprimary

/-! ### Expressions without branches -/

theorem readsBack_literal (v : Value) (hv : v.readsBack = true) : ReadsBack 1 (.literal v) :=
  readsBack_of_primary 0 (.literal v) rfl (opens_value v hv) fun _ _ rest _ =>
    reads_primary_literal v hv rest

theorem readsBack_rule (x : String) (hx : Text.isName x.toList = true) : ReadsBack 1 (.rule x) :=
  readsBack_of_primary 0 (.rule x) rfl rfl fun _ _ rest hflush =>
    reads_primary_dollar _ rest _ (reads_dollar_rule x hx rest hflush)

theorem readsBack_reference (target : Reference) (ht : target.isPath = true) :
    ReadsBack 1 (.reference target) :=
  readsBack_of_primary 0 (.reference target) rfl (opens_reference target) fun _ _ rest hflush =>
    reads_primary_reference target ht rest hflush

theorem readsBack_assign (d : Nat) (target : Reference) (op : AssignOp) (v : Node)
    (ht : target.isPath = true) (hop : op.isKnown = true) (h : ReadsBack d v) :
    ReadsBack (d + 2) (.assign target op v) := by
  have hopens : (kindAt (Node.assign target op v).pieces 0).opens = true := by
    rw [Node.pieces, List.append_assoc]
    exact opens_append _ _ (opens_reference target)
  refine readsBack_of_value (d + 1) _ rfl hopens (fun hn => by cases hn) ?_
  intro e he rest hflush hvariable
  obtain ⟨e, rfl⟩ : ∃ f, e = f + 1 := ⟨e - 1, by omega⟩
  rw [Node.pieces, List.append_assoc]
  exact reads_assignment target ht op hop _ rest _ (h.value e (by omega) rest hflush hvariable)

theorem readsBack_binary (d : Nat) (l : Node) (op : BinaryOp) (r : Node)
    (hop : op.isKnown = true) (hl : ReadsBack d l) (hr : ReadsBack d r) :
    ReadsBack (d + 2) (.binary l op r) := by
  refine readsBack_of_primary (d + 1) _ rfl rfl fun e he rest hflush => ?_
  obtain ⟨e, rfl⟩ : ∃ f, e = f + 1 := ⟨e - 1, by omega⟩
  have hleft := reads_operand d l hl e (by omega)
    (spaced op.kind ++ inBrackets r.isLooseOperand r.pieces ++ symbol .rightParen :: rest)
    (by simp [spaced, StartsFlush]) (by cases op <;> rfl)
  have hright := reads_operand d r hr e (by omega) (symbol .rightParen :: rest)
    TokenKind.noConfusion rfl
  have hpair := reads_comparison_pair op hop _ _ _ _ _ hleft hright rfl
  have hexpression := reads_expression_of_assignment _ _ _
    (reads_assignment_of_comparison _ _ _ hpair rfl) TokenKind.noConfusion
  have hparens := @reads_primary_parentheses (Parser.Inner.level (e + 1)) _ rest _
    hexpression
  simpa only [Node.pieces, Node.reread, List.cons_append, List.append_assoc] using hparens

theorem readsBack_silent (d : Nat) (n : Node) (h : ReadsBack d n) :
    ReadsBack (d + 1) (.silent n) := by
  refine readsBack_of_primary d _ rfl rfl fun e he rest _ => ?_
  refine reads_primary_bracket _ rest _ ?_
  rw [Parser.Inner.bracket_eq]
  exact reads_accept _ .bang _ _ _ rest _ (by decide) (h.contents e he true rest)

theorem readsAll_members (d e : Nat) (he : d ≤ e) (members : List Node) (rest : List Piece)
    (hd : ∀ n ∈ members, ReadsBack d n) :
    ∃ ps, (∀ first : List Piece, joined [symbol .semicolon, gap] (first :: memberPieces members) =
        first ++ ps) ∧
      (∃ kind more, (kind = .semicolon ∨ kind = .rightBracket) ∧
        ps ++ symbol .rightBracket :: rest = symbol kind :: more) ∧
      ReadsAll (fun c => c.kind = .semicolon)
        (Parser.advance >>= fun _ => (Parser.Inner.level e).readExpression)
        (symbol .rightBracket :: rest) ps (rereadAll members) := by
  -- a member is read up to the semicolon in front of the next one, or the bracket behind the last
  induction members with
  | nil =>
    refine ⟨[], fun first => by simp [memberPieces, joined], ⟨_, _, .inr rfl, rfl⟩, ?_⟩
    refine .nil fun c hc => ?_
    have hk : c.kind = .rightBracket := c.kind_of_before _ hc
    simp [hk]
  | cons n members ih =>
    obtain ⟨ps, hps, ⟨kind, more, hkind, hmore⟩, hall⟩ :=
      ih fun m hm => hd m (List.mem_cons_of_mem n hm)
    refine ⟨symbol .semicolon :: gap :: inBrackets n.isList n.pieces ++ ps, fun first => ?_,
      ⟨_, _, .inl rfl, rfl⟩, ?_⟩
    · rw [memberPieces, joined, hps]
      · simp
      · exact List.cons_ne_nil _ _
    · have hn : Reads (Parser.Inner.level e).readExpression (inBrackets n.isList n.pieces)
          (ps ++ symbol .rightBracket :: rest) (n.reread .expression) := by
        rw [hmore]
        refine (hd n List.mem_cons_self).member e he _ ?_ ?_ ?_ ?_
        all_goals rcases hkind with rfl | rfl <;> first | rfl | exact TokenKind.noConfusion
      refine .cons _ ps _ _ (by simp [symbol, kinds]) (fun c hc => ?_) ?_ hall
      · have hk : c.kind = .semicolon := c.kind_of_before _ hc
        simp [hk]
      · exact reads_advance _ .semicolon _ _ _ _ _ (by decide) fun p => reads_gap _ _ _ _ hn

theorem readsBack_list (d : Nat) (members : List Node) (hlength : 2 ≤ members.length)
    (hd : ∀ n ∈ members, ReadsBack d n) : ReadsBack (d + 1) (.group members false) := by
  obtain ⟨first, second, others, rfl⟩ : ∃ first second others, members = first :: second :: others :=
    match members, hlength with
    | first :: second :: others, _ => ⟨first, second, others, rfl⟩
  have hfirst := hd first List.mem_cons_self
  have hopens : (kindAt (Node.group (first :: second :: others) false).pieces 0).opens = true := by
    obtain ⟨more, hmore⟩ := joined_cons [symbol .semicolon, gap]
      (inBrackets first.isList first.pieces) (memberPieces (second :: others))
    rw [Node.pieces, memberPieces, hmore]
    exact opens_append _ _ (opens_inBrackets _ _ hfirst.opens)
  have hcontents : ∀ e, d + 1 ≤ e → ∀ silent rest, Reads ((Parser.Inner.level e).contents silent)
      ((Node.group (first :: second :: others) false).pieces ++ [symbol .rightBracket]) rest
      (Node.silentIf silent ((Node.group (first :: second :: others) false).reread .expression)) := by
    intro e he silent rest
    obtain ⟨e, rfl⟩ : ∃ f, e = f + 1 := ⟨e - 1, by omega⟩
    obtain ⟨ps, hps, ⟨kind, more, hkind, hmore⟩, hall⟩ := readsAll_members d e (by omega)
      (second :: others) rest fun m hm => hd m (List.mem_cons_of_mem first hm)
    have hn : Reads (Parser.Inner.level e).readExpression (inBrackets first.isList first.pieces)
        (ps ++ symbol .rightBracket :: rest) (first.reread .expression) := by
      rw [hmore]
      refine hfirst.member e (by omega) _ ?_ ?_ ?_ ?_
      all_goals rcases hkind with rfl | rfl <;> first | rfl | exact TokenKind.noConfusion
    have hcontents := @reads_contents (Parser.Inner.level (e + 1)) silent _ ps rest _ _ hn
      hall
    rw [Node.pieces, memberPieces, hps, List.append_assoc]
    exact hcontents
  exact readsBack_of_contents (d + 1) _ rfl hopens hcontents fun h => by cases h

/-! ### Parts of running text -/

theorem isBareWord_of_isBarePunctuation (s : String) (h : Text.isBarePunctuation s = true) :
    Text.isBareWord s = false := by
  rcases isBarePunctuation_cases s h with rfl | rfl | rfl | rfl <;> decide

theorem literal_punctuation (s : String) (h : Text.isBarePunctuation s = true) :
    literal s true = punctuation s := by
  rw [literal, isBareWord_of_isBarePunctuation s h, h]
  rfl

theorem literal_inText (s : String) (h : Text.isBarePunctuation s = false) :
    literal s true = literal s false := by
  simp [literal, h]

theorem part_starts (n : Node) (hopens : (kindAt n.pieces 0).opens = true)
    (hv : ∀ v, n = .literal v → v.readsBack = true) :
    (kindAt (n.elementPieces n.pieces) 0).endsBranch = false ∧
      kindAt (n.elementPieces n.pieces) 0 ≠ .question ∧
      (n.hasSign = false → (kindAt (n.elementPieces n.pieces) 0).makesVariable = false) := by
  cases n with
  | literal v =>
    have hread := hv v rfl
    cases v with
    | text s =>
      show (kindAt [literal s true] 0).endsBranch = false ∧ kindAt [literal s true] 0 ≠ .question ∧
        (_ → (kindAt [literal s true] 0).makesVariable = false)
      unfold literal
      split
      · unfold word
        split <;> exact ⟨rfl, TokenKind.noConfusion, fun _ => rfl⟩
      split
      next hp =>
        obtain ⟨kind, -, hvariable, hends, hquestion, -, hpiece⟩ :=
          punctuation_cases s (by simpa using hp)
        rw [hpiece]
        exact ⟨hends, hquestion, fun _ => hvariable⟩
      next => exact ⟨rfl, TokenKind.noConfusion, fun _ => rfl⟩
    | number m =>
      obtain ⟨s, hs, -⟩ := display_of_number_readsBack m hread
      have hpieces : (Node.literal (.number m)).elementPieces (Node.literal (.number m)).pieces =
          signed s.toList := pieces_number m true s hs
      have hsign : (Node.literal (.number m)).hasSign = decide (s.toList.head? = some '-') := by
        simp only [Node.hasSign, hs]
      rw [hpieces, hsign]
      unfold signed
      split
      next digits heq =>
        exact ⟨rfl, TokenKind.noConfusion, fun hno => by simp [heq] at hno⟩
      next =>
        unfold word
        split <;> exact ⟨rfl, TokenKind.noConfusion, fun _ => rfl⟩
    | _ => cases hread
  | rule x => exact ⟨rfl, TokenKind.noConfusion, fun _ => rfl⟩
  | reference target =>
    have hk : kindAt target.pieces 0 = .dollar := by
      unfold Reference.pieces
      split <;> rfl
    show (kindAt target.pieces 0).endsBranch = false ∧ kindAt target.pieces 0 ≠ .question ∧
      (_ → (kindAt target.pieces 0).makesVariable = false)
    rw [hk]
    exact ⟨rfl, TokenKind.noConfusion, fun _ => rfl⟩
  | alternative a => cases hopens
  | definition r => cases hopens
  | missing => cases hopens
  | _ => exact ⟨rfl, TokenKind.noConfusion, fun _ => rfl⟩

theorem reads_branchPart_brackets (d : Nat) (n : Node) (h : ReadsBack d n) (e : Nat) (he : d ≤ e)
    (rest : List Piece) (hk : (kindAt rest 0).makesVariable = false) :
    Reads (Parser.Inner.level e).branchPart (inBrackets true n.pieces) rest
      (n.reread .expression) := by
  have hprimary := reads_inBrackets n rest h.opens (h.contents e he false rest)
  exact reads_branchPart_value _ rest _ rfl (reads_assignment_single _ rest _ hprimary hk)

theorem reads_branchPart (d : Nat) (n : Node) (h : ReadsBack d n) (e : Nat) (he : d ≤ e)
    (rest : List Piece) (hflush : ¬StartsFlush rest)
    (hk : (kindAt rest 0).makesVariable = false) :
    Reads (Parser.Inner.level e).branchPart (inBrackets n.isLoose n.pieces) rest
      (n.reread .expression) :=
  reads_branchPart_value _ rest _ (opens_inBrackets _ _ h.opens) (h.value e he rest hflush hk)

/-- A part of running text reads back, behind punctuation whatever follows it. -/
theorem reads_part (d : Nat) (n : Node) (h : ReadsBack d n)
    (hv : ∀ v, n = .literal v → v.readsBack = true) (e : Nat) (he : d ≤ e) (rest : List Piece)
    (hflush : ¬StartsFlush rest)
    (hk : n.isPunctuation = true ∨ (kindAt rest 0).makesVariable = false) :
    Reads (Parser.Inner.level e).branchPart (n.elementPieces n.pieces) rest
      (n.reread .expression) := by
  by_cases hp : n.isPunctuation = true
  · match n, hp with
    | .literal (.text s), hp =>
      show Reads _ [literal s true] rest _
      rw [literal_punctuation s hp]
      exact reads_branchPart_punctuation s hp rest
  replace hk : (kindAt rest 0).makesVariable = false := hk.resolve_left hp
  have hvalue := reads_branchPart d n h e he rest hflush hk
  cases n with
  | literal v =>
    cases v with
    | text s =>
      have hno : Text.isBarePunctuation s = false := by
        simpa [Node.isPunctuation] using hp
      show Reads _ [literal s true] rest _
      rw [literal_inText s hno]
      exact hvalue
    | _ => exact hvalue
  | rule x => exact hvalue
  | reference target => exact hvalue
  | silent n => exact hvalue
  | alternative a => cases h.opens
  | definition r => cases h.opens
  | missing => cases h.opens
  | _ => exact reads_branchPart_brackets d _ h e he rest hk

theorem readsAll_parts (d e : Nat) (he : d ≤ e) (members : List Node) (rest : List Piece)
    (hflush : ¬StartsFlush rest) (hends : (kindAt rest 0).endsBranch = true)
    (hparen : kindAt rest 0 ≠ .rightParen) (hd : ∀ n ∈ members, ReadsBack d n)
    (hp : plainAll members = true) (fresh : Bool) (hsigns : signsApart fresh members = true) :
    ∃ ps, (∀ first : List Piece, joined [gap] (first :: partPieces members) = first ++ ps) ∧
      ¬StartsFlush (ps ++ rest) ∧ kindAt (ps ++ rest) 0 ≠ .question ∧
      (fresh = true ∨ (kindAt (ps ++ rest) 0).makesVariable = false) ∧
      ReadsAll (fun c => !c.kind.endsBranch) (Parser.Inner.level e).branchPart rest ps
        (rereadAll members) := by
  -- `fresh` holds behind punctuation, where a minus sign belongs to the numeral behind it
  induction members generalizing fresh with
  | nil =>
    obtain ⟨hvariable, hquestion⟩ := endsBranch_facts hends hparen
    refine ⟨[], fun first => by simp [partPieces, joined], hflush, hquestion, .inr hvariable, ?_⟩
    refine .nil fun c hc => ?_
    rw [c.kind_of_before _ hc, hends]
    rfl
  | cons n members ih =>
    simp only [plainAll, signsApart, Bool.and_eq_true, Bool.or_eq_true, Bool.not_eq_true'] at hp hsigns
    obtain ⟨ps, hps, hflush', -, hvariable', hall⟩ :=
      ih (fun m hm => hd m (List.mem_cons_of_mem n hm)) hp.2 n.isPunctuation hsigns.2
    have hn := hd n List.mem_cons_self
    have hv : ∀ v, n = .literal v → v.readsBack = true := by
      rintro v rfl
      exact hp.1
    obtain ⟨hstart, hquestion, hvariable⟩ := part_starts n hn.opens hv
    have hne : kindAt (n.elementPieces n.pieces) 0 ≠ .endOfText := by
      intro hend
      rw [hend] at hstart
      cases hstart
    have hkind : ∀ qs, kindAt (gap :: n.elementPieces n.pieces ++ qs) 0 =
        kindAt (n.elementPieces n.pieces) 0 := fun qs => kindAt_append _ qs hne
    refine ⟨gap :: n.elementPieces n.pieces ++ ps, fun first => ?_, fun h => h, ?_, ?_, ?_⟩
    · rw [partPieces, joined, hps]
      · simp
      · exact List.cons_ne_nil _ _
    · rw [List.append_assoc, hkind]
      exact hquestion
    · rw [List.append_assoc, hkind]
      exact hsigns.1.imp_right hvariable
    · refine .cons _ ps _ _ ?_ (fun c hc => ?_) ?_ hall
      · intro hkinds
        apply hne
        have hnone : kinds (n.elementPieces n.pieces) = [] := hkinds
        rw [kindAt, hnone]
        rfl
      · rw [List.append_assoc] at hc
        rw [c.kind_of_before _ hc, hkind, hstart]
        rfl
      · exact reads_gap _ _ _ _ (reads_part d n hn hv e he _ hflush' hvariable')

/-! ### Branches of conditionals -/

namespace Parser.Inner

/-- Reads the second branch of a conditional, which may be a conditional itself. -/
def secondBranch (inner : Inner) (condition whenTrue : Node) : Parser Node := do
  let first ← inner.branchPart
  let c ← get
  if c.kind = .question && !(c.kindAt 1).endsBranch then
    let _ ← advance
    let whenFalse ← inner.conditionalTail first
    return .conditional condition whenTrue whenFalse
  else
    let whenFalse ← inner.branch [first]
    return .conditional condition whenTrue whenFalse

theorem readConditionalTail_eq (inner : Inner) (condition : Node) :
    inner.readConditionalTail condition = inner.branch [] >>= fun whenTrue =>
      accept .pipe >>= fun more =>
        if more then inner.secondBranch condition whenTrue
        else pure (.conditional condition whenTrue .missing) := rfl

end Parser.Inner

/-- What may follow a branch: a separator or a closing bracket. -/
structure EndsBranch (rest : List Piece) : Prop where
  flush : ¬StartsFlush rest
  ends : (kindAt rest 0).endsBranch = true
  paren : kindAt rest 0 ≠ .rightParen

/-- A node reads back as the first branch of a conditional. -/
structure ReadsAsFirst (d : Nat) (n : Node) : Prop where
  starts : (kindAt (inBrackets (n.isConditional || n.isList) n.pieces) 0).endsBranch = false
  reads : ∀ e, d ≤ e → ∀ rest, EndsBranch rest →
    Reads ((Parser.Inner.level e).branch [])
      (inBrackets (n.isConditional || n.isList) n.pieces) rest (n.reread .branch)

/-- A node reads back as the second branch of a conditional. -/
def ReadsAsSecond (d : Nat) (n : Node) : Prop :=
  ∀ e, d ≤ e → ∀ condition whenTrue rest, EndsBranch rest → kindAt rest 0 ≠ .pipe →
    Reads ((Parser.Inner.level e).secondBranch condition whenTrue) (inBrackets n.isList n.pieces) rest
      (.conditional condition whenTrue (n.reread .otherwise))

theorem endsBranch_not_opens {kind : TokenKind} (h : kind.endsBranch = false) :
    kind ≠ .endOfText := by
  rintro rfl
  cases h

theorem readsAll_single (item : Parser Node) (ps rest : List Piece) (n : Node)
    (hstart : (kindAt ps 0).endsBranch = false) (hrest : EndsBranch rest)
    (h : Reads item ps rest n) :
    ReadsAll (fun c => !c.kind.endsBranch) item rest ps [n] := by
  rw [← List.append_nil ps]
  refine .cons ps [] n [] ?_ (fun c hc => ?_) h (.nil fun c hc => ?_)
  · intro hkinds
    rw [kindAt, hkinds] at hstart
    cases hstart
  · rw [List.append_nil] at hc
    rw [c.kind_of_before _ hc, kindAt_append ps rest (endsBranch_not_opens hstart), hstart]
    rfl
  · rw [c.kind_of_before _ hc, hrest.ends]
    rfl

theorem readsAsFirst_of_readsBack (d : Nat) (n : Node) (h : ReadsBack d n)
    (hn : n.isLoose = (n.isConditional || n.isList)) (hr : n.reread .branch = n.reread .expression) :
    ReadsAsFirst d n := by
  have hopens := opens_inBrackets n.isLoose _ h.opens
  have hstart := (isBranchText_of_opens hopens).2.1
  refine ⟨hn ▸ hstart, fun e he rest hrest => ?_⟩
  have hvariable := (endsBranch_facts hrest.ends hrest.paren).1
  rw [← hn, hr]
  exact reads_branch [] [n.reread .expression] _ rest (by simp)
    (readsAll_single _ _ rest _ hstart hrest (reads_branchPart d n h e he rest hrest.flush hvariable))

theorem readsAsSecond_of_readsBack (d : Nat) (n : Node) (h : ReadsBack d n)
    (hn : n.isLoose = n.isList) (hr : n.reread .otherwise = n.reread .expression) :
    ReadsAsSecond d n := by
  intro e he condition whenTrue rest hrest _
  obtain ⟨hvariable, hquestion⟩ := endsBranch_facts hrest.ends hrest.paren
  rw [← hn, hr, ← List.append_nil (inBrackets _ _)]
  refine reads_bind _ _ _ [] rest _ _ (reads_branchPart d n h e he rest hrest.flush hvariable) ?_
  refine reads_get _ _ _ _ fun c hc => ?_
  have hk : (c.kind = .question) = False := by
    rw [c.kind_of_before _ hc]
    exact eq_false hquestion
  simp only [hk, decide_false, Bool.false_and, Bool.false_eq_true, if_false]
  rw [← List.append_nil ([] : List Piece)]
  refine reads_bind _ _ [] [] rest _ _ (reads_branch [n.reread .expression] [] [] rest (by simp) ?_)
    (reads_pure _ rest)
  refine .nil fun c hc => ?_
  rw [c.kind_of_before _ hc, hrest.ends]
  rfl

/-- Running text reads back as a branch, part by part. -/
theorem prose_parts (d : Nat) (members : List Node) (hlength : 2 ≤ members.length)
    (hd : ∀ n ∈ members, ReadsBack d n) (hp : plainAll members = true)
    (hsigns : signsApart true members = true) :
    ∃ first others, members = first :: others ∧ others ≠ [] ∧
      (kindAt (first.elementPieces first.pieces) 0).endsBranch = false ∧
      ∀ e, d ≤ e → ∀ rest, EndsBranch rest → ∃ ps,
        (Node.group members true).pieces = first.elementPieces first.pieces ++ ps ∧
        kindAt (ps ++ rest) 0 ≠ .question ∧
        Reads (Parser.Inner.level e).branchPart (first.elementPieces first.pieces) (ps ++ rest)
          (first.reread .expression) ∧
        ReadsAll (fun c => !c.kind.endsBranch) (Parser.Inner.level e).branchPart rest ps
          (rereadAll others) := by
  obtain ⟨first, second, others, rfl⟩ : ∃ first second others, members = first :: second :: others :=
    match members, hlength with
    | first :: second :: others, _ => ⟨first, second, others, rfl⟩
  refine ⟨first, second :: others, rfl, List.cons_ne_nil _ _, ?_⟩
  rw [plainAll, Bool.and_eq_true] at hp
  rw [signsApart, Bool.and_eq_true] at hsigns
  have hfirst := hd first List.mem_cons_self
  have hv : ∀ v, first = .literal v → v.readsBack = true := by
    rintro v rfl
    exact hp.1
  refine ⟨(part_starts first hfirst.opens hv).1, fun e he rest hrest => ?_⟩
  obtain ⟨ps, hps, hflush, hquestion, hvariable, hall⟩ := readsAll_parts d e he (second :: others)
    rest hrest.flush hrest.ends hrest.paren (fun m hm => hd m (List.mem_cons_of_mem first hm)) hp.2
    first.isPunctuation hsigns.2
  refine ⟨ps, ?_, hquestion, reads_part d first hfirst hv e he _ hflush hvariable, hall⟩
  rw [Node.pieces, partPieces, hps]

theorem readsAsFirst_prose (d : Nat) (members : List Node) (hlength : 2 ≤ members.length)
    (hd : ∀ n ∈ members, ReadsBack d n) (hp : plainAll members = true)
    (hsigns : signsApart true members = true) : ReadsAsFirst d (.group members true) := by
  obtain ⟨first, others, rfl, hne, hstart, hparts⟩ := prose_parts d members hlength hd hp hsigns
  have hend := endsBranch_not_opens hstart
  obtain ⟨more, hmore⟩ := joined_cons [gap] (first.elementPieces first.pieces) (partPieces others)
  refine ⟨?_, fun e he rest hrest => ?_⟩
  · show (kindAt (joined [gap] (first.elementPieces first.pieces :: partPieces others)) 0).endsBranch
      = false
    rw [hmore, kindAt_append _ _ hend]
    exact hstart
  · obtain ⟨ps, hpieces, -, hfirst, hall⟩ := hparts e he rest hrest
    show Reads _ (Node.group (first :: others) true).pieces rest _
    rw [hpieces]
    have hreads := reads_branch [] (first.reread .expression :: rereadAll others) _ rest (by simp)
      (.cons _ ps _ _ ?_ (fun c hc => ?_) hfirst hall)
    · cases others with
      | nil => exact absurd rfl hne
      | cons second others => exact hreads
    · intro hkinds
      rw [kindAt, hkinds] at hend
      exact hend rfl
    · rw [List.append_assoc] at hc
      rw [c.kind_of_before _ hc, kindAt_append _ _ hend, hstart]
      rfl

theorem readsAsSecond_prose (d : Nat) (members : List Node) (hlength : 2 ≤ members.length)
    (hd : ∀ n ∈ members, ReadsBack d n) (hp : plainAll members = true)
    (hsigns : signsApart true members = true) : ReadsAsSecond d (.group members true) := by
  obtain ⟨first, others, rfl, hne, -, hparts⟩ := prose_parts d members hlength hd hp hsigns
  intro e he condition whenTrue rest hrest _
  obtain ⟨ps, hpieces, hquestion, hfirst, hall⟩ := hparts e he rest hrest
  show Reads _ (Node.group (first :: others) true).pieces rest _
  rw [hpieces]
  refine reads_bind _ _ _ ps rest _ _ hfirst (reads_get _ _ _ _ fun c hc => ?_)
  have hk : (c.kind = .question) = False := by
    rw [c.kind_of_before _ hc]
    exact eq_false hquestion
  simp only [hk, decide_false, Bool.false_and, Bool.false_eq_true, if_false]
  rw [← List.append_nil ps]
  have hbranch := reads_branch [first.reread .expression] (rereadAll others) ps rest (by simp) hall
  refine reads_bind _ _ ps [] rest _ _ hbranch ?_
  cases others with
  | nil => exact absurd rfl hne
  | cons second others => exact reads_pure _ rest

/-! ### Conditionals -/

def branchPieces (whenTrue whenFalse : Node) : List Piece :=
  inBrackets (whenTrue.isConditional || whenTrue.isList) whenTrue.pieces ++
    if whenFalse.isMissing then []
    else spaced .pipe ++ inBrackets whenFalse.isList whenFalse.pieces

theorem pieces_conditional (condition whenTrue whenFalse : Node) :
    (Node.conditional condition whenTrue whenFalse).pieces =
      inBrackets condition.isLoose condition.pieces ++
        (spaced .question ++ branchPieces whenTrue whenFalse) := by
  simp [Node.pieces, branchPieces]

theorem reread_of_isMissing (n : Node) (h : n.isMissing = true) (place : Place) :
    n.reread place = .missing := by
  cases n <;> first | rfl | cases h

theorem reads_branches (d : Nat) (whenTrue whenFalse : Node) (ht : ReadsAsFirst d whenTrue)
    (hf : whenFalse.isMissing = true ∨ ReadsAsSecond d whenFalse) (e : Nat) (he : d ≤ e)
    (condition : Node) (rest : List Piece) (hrest : EndsBranch rest) (hpipe : kindAt rest 0 ≠ .pipe) :
    Reads ((Parser.Inner.level e).readConditionalTail condition) (branchPieces whenTrue whenFalse)
      rest (.conditional condition (whenTrue.reread .branch) (whenFalse.reread .otherwise)) := by
  rw [Parser.Inner.readConditionalTail_eq, branchPieces]
  cases hm : whenFalse.isMissing with
  | true =>
    rw [reread_of_isMissing whenFalse hm]
    refine reads_bind _ _ _ [] rest _ _ (ht.reads e he rest hrest) ?_
    exact reads_accept_other _ .pipe [] rest _ hpipe (reads_pure _ rest)
  | false =>
    have hsecond : ReadsAsSecond d whenFalse := by
      rcases hf with hf | hf
      · rw [hm] at hf
        cases hf
      · exact hf
    have hends : EndsBranch (spaced .pipe ++ inBrackets whenFalse.isList whenFalse.pieces ++ rest) :=
      ⟨fun h => h, rfl, TokenKind.noConfusion⟩
    refine reads_bind _ _ _ _ rest _ _ (ht.reads e he _ hends) ?_
    refine reads_gap _ _ _ _ (reads_accept _ .pipe _ _ _ rest _ (by decide) ?_)
    exact reads_gap _ _ _ _ (hsecond e he condition _ rest hrest hpipe)

theorem opens_conditional (d : Nat) (condition whenTrue whenFalse : Node)
    (hc : ReadsBack d condition) :
    (kindAt (Node.conditional condition whenTrue whenFalse).pieces 0).opens = true := by
  rw [pieces_conditional]
  exact opens_append _ _ (opens_inBrackets _ _ hc.opens)

theorem readsBack_conditional (d : Nat) (condition whenTrue whenFalse : Node)
    (hc : ReadsBack d condition) (ht : ReadsAsFirst d whenTrue)
    (hf : whenFalse.isMissing = true ∨ ReadsAsSecond d whenFalse) :
    ReadsBack (d + 1) (.conditional condition whenTrue whenFalse) := by
  have hmember : ∀ e, d ≤ e → ∀ rest, ¬StartsFlush rest → (kindAt rest 0).endsBranch = true →
      kindAt rest 0 ≠ .pipe → kindAt rest 0 ≠ .rightParen →
      Reads (Parser.Inner.level e).readExpression
        (Node.conditional condition whenTrue whenFalse).pieces rest
        ((Node.conditional condition whenTrue whenFalse).reread .expression) := by
    intro e he rest hflush hends hpipe hparen
    rw [pieces_conditional]
    refine reads_bind _ _ _ _ rest _ _ (hc.value e he _ (fun h => h) rfl) ?_
    refine reads_gap _ _ _ _ (reads_accept _ .question _ _ _ rest _ (by decide) ?_)
    exact reads_gap _ _ _ _
      (reads_branches d whenTrue whenFalse ht hf e he _ rest ⟨hflush, hends, hparen⟩ hpipe)
  refine readsBack_of_contents (d + 1) _ rfl (opens_conditional d _ _ _ hc) ?_
    fun _ e he => hmember e (by omega)
  exact contents_of_member d _ hmember

/-- A conditional as the second branch of a conditional stands without brackets. -/
theorem readsAsSecond_conditional (d : Nat) (condition whenTrue whenFalse : Node)
    (hc : ReadsBack d condition) (ht : ReadsAsFirst d whenTrue)
    (hf : whenFalse.isMissing = true ∨ ReadsAsSecond d whenFalse) :
    ReadsAsSecond (d + 1) (.conditional condition whenTrue whenFalse) := by
  intro e he outer chosen rest hrest hpipe
  obtain ⟨e, rfl⟩ : ∃ f, e = f + 1 := ⟨e - 1, by omega⟩
  show Reads _ (Node.conditional condition whenTrue whenFalse).pieces rest _
  rw [pieces_conditional]
  have hfirst := reads_branchPart d condition hc (e + 1) (by omega)
    (spaced .question ++ branchPieces whenTrue whenFalse ++ rest) (fun h => h) rfl
  refine reads_bind _ _ _ _ rest _ _ hfirst (reads_get _ _ _ _ fun c hc => ?_)
  have hk : (c.kind = .question) = True := by
    rw [c.kind_of_before _ hc]
    exact eq_true rfl
  have hk' : (c.kindAt 1).endsBranch = false := by
    have hstart := ht.starts
    have hne := endsBranch_not_opens hstart
    have hbranch : kindAt (branchPieces whenTrue whenFalse) 0 =
        kindAt (inBrackets (whenTrue.isConditional || whenTrue.isList) whenTrue.pieces) 0 := by
      rw [branchPieces, kindAt_append _ _ hne]
    have hnext : kindAt (spaced .question ++ branchPieces whenTrue whenFalse ++ rest) 1 =
        kindAt (branchPieces whenTrue whenFalse ++ rest) 0 := rfl
    rw [c.kindAt_of_before _ hc 1, hnext, kindAt_append _ _ (by rwa [hbranch]), hbranch]
    exact hstart
  simp only [hk, hk', decide_true, Bool.not_false, Bool.and_self, if_true]
  refine reads_gap _ _ _ _ (reads_advance _ .question _ _ _ rest _ (by decide) fun p => ?_)
  refine reads_gap _ _ _ _ ?_
  rw [← List.append_nil (branchPieces _ _)]
  refine reads_bind _ _ _ [] rest _ _ ?_ (reads_pure _ rest)
  exact reads_branches d whenTrue whenFalse ht hf e (by omega) _ rest hrest hpipe

/-! ### All nodes -/

/-- A node reads back in a place. -/
def ReadsIn (d : Nat) : Place → Node → Prop
  | .operand, n => ReadsBack d n
  | .expression, n => ReadsBack d n
  | .branch, n => ReadsAsFirst d n
  | .otherwise, n => n.isMissing = true ∨ ReadsAsSecond d n

theorem readsAsFirst_mono (d e : Nat) (hde : d ≤ e) (n : Node) (h : ReadsAsFirst d n) :
    ReadsAsFirst e n :=
  ⟨h.starts, fun f hf => h.reads f (Nat.le_trans hde hf)⟩

theorem readsAsSecond_mono (d e : Nat) (hde : d ≤ e) (n : Node)
    (h : n.isMissing = true ∨ ReadsAsSecond d n) : n.isMissing = true ∨ ReadsAsSecond e n :=
  h.imp_right fun h f hf => h f (Nat.le_trans hde hf)

theorem reread_place (n : Node) (place : Place) (h : place ≠ .operand) :
    n.reread place = n.reread .expression := by
  cases n <;> simp [Node.reread, h]

/-- An expression that is neither a conditional nor running text reads back in every place. -/
theorem readsIn_of_readsBack (d : Nat) (place : Place) (n : Node) (h : ReadsBack d n)
    (hn : n.isLoose = n.isList) (hc : n.isConditional = false) : ReadsIn d place n := by
  cases place with
  | operand => exact h
  | expression => exact h
  | branch =>
    refine readsAsFirst_of_readsBack d n h ?_ (reread_place n .branch (by decide))
    rw [hc, hn]
    rfl
  | otherwise =>
    exact .inr (readsAsSecond_of_readsBack d n h hn (reread_place n .otherwise (by decide)))

theorem readsIn_conditional (d : Nat) (place : Place) (condition whenTrue whenFalse : Node)
    (hc : ReadsBack d condition) (ht : ReadsAsFirst d whenTrue)
    (hf : whenFalse.isMissing = true ∨ ReadsAsSecond d whenFalse) :
    ReadsIn (d + 1) place (.conditional condition whenTrue whenFalse) := by
  have h := readsBack_conditional d condition whenTrue whenFalse hc ht hf
  cases place with
  | operand => exact h
  | expression => exact h
  | branch => exact readsAsFirst_of_readsBack (d + 1) _ h rfl rfl
  | otherwise => exact .inr (readsAsSecond_conditional d condition whenTrue whenFalse hc ht hf)

mutual

/-- A node that fits its place and is plain reads back there, with the levels that it may take. -/
theorem readsIn_of_fits (n : Node) (place : Place) (hf : n.fits place = true)
    (hp : n.plain = true) : ReadsIn n.levels place n := by
  cases n with
  | literal v => exact readsIn_of_readsBack 1 place _ (readsBack_literal v hp) rfl rfl
  | rule x => exact readsIn_of_readsBack 1 place _ (readsBack_rule x hf) rfl rfl
  | reference target =>
    exact readsIn_of_readsBack 1 place _ (readsBack_reference target hf) rfl rfl
  | assign target op expression =>
    simp only [Node.fits, Bool.and_eq_true] at hf
    have he := readsIn_of_fits expression .expression hf.2 hp
    have h := readsBack_assign expression.levels target op expression hf.1.1 hf.1.2 he
    exact readsIn_of_readsBack (expression.levels + 2) place _ h rfl rfl
  | binary left op right =>
    simp only [Node.fits, Node.plain, Bool.and_eq_true] at hf hp
    have hl := readsIn_of_fits left .operand hf.1.1 hp.1
    have hr := readsIn_of_fits right .operand hf.2 hp.2
    have h := readsBack_binary (max left.levels right.levels) left op right hf.1.2
      (readsBack_mono _ _ (Nat.le_max_left _ _) left hl)
      (readsBack_mono _ _ (Nat.le_max_right _ _) right hr)
    exact readsIn_of_readsBack _ place _ h rfl rfl
  | conditional condition whenTrue whenFalse =>
    simp only [Node.fits, Node.plain, Bool.and_eq_true] at hf hp
    have hc := readsIn_of_fits condition .expression hf.1.1 hp.1.1
    have ht := readsIn_of_fits whenTrue .branch hf.1.2 hp.1.2
    have hfalse := readsIn_of_fits whenFalse .otherwise hf.2 hp.2
    rw [Node.levels]
    exact readsIn_conditional _ place condition whenTrue whenFalse
      (readsBack_mono _ _ (by omega) condition hc)
      (readsAsFirst_mono _ _ (by omega) whenTrue ht)
      (readsAsSecond_mono _ _ (by omega) whenFalse hfalse)
  | silent expression =>
    have he := readsIn_of_fits expression .expression hf hp
    exact readsIn_of_readsBack _ place _ (readsBack_silent _ expression he) rfl rfl
  | group members prose =>
    simp only [Node.fits, Node.plain, Bool.and_eq_true, decide_eq_true_eq] at hf hp
    obtain ⟨⟨hplace, hlength⟩, hfit⟩ := hf
    have hd := readsBack_of_fitAll members hfit hp.1
    cases prose with
    | false => exact readsIn_of_readsBack _ place _ (readsBack_list _ members hlength hd) rfl rfl
    | true =>
      cases place with
      | operand => cases hplace
      | expression => cases hplace
      | branch => exact readsAsFirst_prose _ members hlength hd hp.1 hp.2
      | otherwise => exact .inr (readsAsSecond_prose _ members hlength hd hp.1 hp.2)
  | alternative a => cases hf
  | definition r => cases hf
  | missing =>
    cases place with
    | otherwise => exact .inl rfl
    | _ => cases hf

theorem readsBack_of_fitAll (members : List Node) (hf : fitAll members = true)
    (hp : plainAll members = true) : ∀ n ∈ members, ReadsBack (mostLevels members) n := by
  cases members with
  | nil => exact fun n hn => nomatch hn
  | cons n rest =>
    simp only [fitAll, plainAll, Bool.and_eq_true] at hf hp
    have hn := readsIn_of_fits n .expression hf.1 hp.1
    have hrest := readsBack_of_fitAll rest hf.2 hp.2
    intro m hm
    rw [mostLevels]
    rcases List.mem_cons.mp hm with rfl | hm
    · exact readsBack_mono _ _ (Nat.le_max_left _ _) m hn
    · exact readsBack_mono _ _ (Nat.le_max_right _ _) m (hrest m hm)

end

end ProseGrammar
