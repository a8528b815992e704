import ProseGrammar.Proofs.Binary64
import ProseGrammar.Proofs.Decimal.Integers
import ProseGrammar.Proofs.Grammar.Form
import ProseGrammar.Proofs.Grammar.Yields
import ProseGrammar.Proofs.Growth

/-!
# What is read fits

Every grammar that is read from a text fits: references are paths of names, operators have a
meaning, lists and running text in a branch have at least two parts, and weights are positive. Only
a branch of a conditional may read as running text or be absent, any other expression fits the place
of an operand, and so every place.
-/

namespace ProseGrammar

/-! ### Places -/

theorem fits_of_operand (n : Node) (place : Place) (h : n.fits .operand = true) :
    n.fits place = true := by
  cases n with
  | group members prose =>
    simp only [Node.fits, Place.holdsProse, Bool.or_false, Bool.and_eq_true] at h ⊢
    exact ⟨⟨by simp [h.1.1], h.1.2⟩, h.2⟩
  | missing => cases h
  | _ => exact h

theorem fitAll_of_operands (members : List Node) (h : ∀ n ∈ members, n.fits .operand = true) :
    fitAll members = true := by
  induction members with
  | nil => rfl
  | cons n rest ih =>
    rw [fitAll, fits_of_operand n .expression (h n List.mem_cons_self),
      ih fun m hm => h m (List.mem_cons_of_mem n hm)]
    rfl

/-! ### Literals -/

theorem yields_numeral (negative : Bool) (c : Cursor) (hc : c.IsSound) (hk : c.kind = .number) :
    Yields (Parser.Inner.numeral negative) c fun n => n.fits .operand = true := by
  refine yields_bind _ _ _ _ _ (yields_advance c hc) fun t c' hc' ht => ?_
  obtain ⟨hsound, hkind⟩ := ht
  have hplain : Text.isPlainNumeral t.value.toList = true := by
    rw [Token.isSound, hkind, hk] at hsound
    exact hsound
  refine yields_lift _ _ _ _ fun number hn => ?_
  have hsome := numberOfText?_of_isPlainNumeral t.value hplain number hn
  cases number with
  | none => cases hsome
  | some n => exact yields_pure _ _ _ hc' rfl

/-! ### References -/

theorem isName_of_identifier (t : Token) (h : t.isSound = true) (hk : t.kind = .identifier) :
    Text.isName t.value.toList = true := by
  rw [Token.isSound, hk] at h
  exact h

theorem isName_segments (last : Token) (ts : List Token) (h : ∀ t ∈ ts, t.isSound = true) :
    ∀ s ∈ Parser.segments last ts, Text.isName s.toList = true := by
  fun_induction Parser.segments last ts with
  | case1 last point name rest hdot ih =>
    intro s hs
    simp only [Bool.and_eq_true, decide_eq_true_eq] at hdot
    rcases List.mem_cons.mp hs with rfl | hs
    · exact isName_of_identifier name (h name (by simp)) hdot.1.1.2
    · exact ih (fun t ht => h t (by simp [ht])) s hs
  | case2 => exact fun s hs => nomatch hs
  | case3 => exact fun s hs => nomatch hs

theorem yields_path (first : Token) (hf : first.isSound = true) (hk : first.kind = .identifier)
    (c : Cursor) (hc : c.IsSound) :
    Yields (Parser.path first) c fun path =>
      ∀ isKnowledge, Reference.isPath ⟨path, isKnowledge⟩ = true := by
  refine yields_get _ _ _ (yields_set _ _ _ _ (yields_pure _ _ _ (c.isSound_drop hc _ _) ?_))
  intro isKnowledge
  have hsegments := isName_segments first c.rest hc
  simp only [Reference.isPath, List.isEmpty_cons, Bool.not_false, Bool.true_and, List.all_cons,
    Bool.and_eq_true, List.all_eq_true]
  exact ⟨isName_of_identifier first hf hk, hsegments⟩

theorem yields_dollar (c : Cursor) (hc : c.IsSound) :
    Yields Parser.dollar c fun n => n.fits .operand = true := by
  refine yields_bind _ _ _ _ _ (yields_accept .dollar c hc) fun knowledge c₁ hc₁ _ => ?_
  split
  · refine yields_bind _ _ _ _ _ (yields_expect .dot _ c₁ hc₁) fun _ c₂ hc₂ _ => ?_
    refine yields_bind _ _ _ _ _ (yields_expect .identifier _ c₂ hc₂) fun first c₃ hc₃ hfirst => ?_
    refine yields_bind _ _ _ _ _ (yields_path first hfirst.1 hfirst.2 c₃ hc₃)
      fun path c₄ hc₄ hpath => ?_
    exact yields_pure _ _ _ hc₄ (hpath true)
  · refine yields_bind _ _ _ _ _ (yields_expect .identifier _ c₁ hc₁) fun name c₂ hc₂ hname => ?_
    refine yields_bind _ _ _ _ _ (yields_path name hname.1 hname.2 c₂ hc₂)
      fun path c₃ hc₃ hpath => ?_
    refine yields_get _ _ _ ?_
    split
    · exact yields_pure _ _ _ hc₃ (hpath false)
    · exact yields_pure _ _ _ hc₃ (isName_of_identifier name hname.1 hname.2)

/-! ### Operators -/

theorem value_of_symbol (t : Token) (h : t.isSound = true) (hs : t.kind.symbol ≠ []) :
    t.value = String.ofList t.kind.symbol := by
  have hvalue : t.value.toList = t.kind.symbol := by
    cases hk : t.kind <;>
      first
      | simpa [Token.isSound, hk, TokenKind.allows] using h
      | exact absurd (by rw [hk]; rfl) hs
  rw [← hvalue, String.ofList_toList]

theorem isKnown_binaryOp (t : Token) (h : t.isSound = true)
    (hk : t.kind.isComparison = true ∨ t.kind.isAdditive = true ∨
      t.kind.isMultiplicative = true) : (BinaryOp.ofSymbol t.value).isKnown = true := by
  have hkinds : ∀ kind : TokenKind, kind.isComparison = true ∨ kind.isAdditive = true ∨
      kind.isMultiplicative = true →
      kind.symbol ≠ [] ∧ (BinaryOp.ofSymbol (String.ofList kind.symbol)).isKnown = true := by
    intro kind hkind
    cases kind <;> first | decide | exact absurd hkind (by decide)
  obtain ⟨hs, hknown⟩ := hkinds t.kind hk
  rw [value_of_symbol t h hs]
  exact hknown

theorem isKnown_assignOp (t : Token) (h : t.isSound = true) (hk : t.kind.isAssignment = true) :
    (AssignOp.ofSymbol t.value).isKnown = true := by
  have hkinds : ∀ kind : TokenKind, kind.isAssignment = true →
      kind.symbol ≠ [] ∧ (AssignOp.ofSymbol (String.ofList kind.symbol)).isKnown = true := by
    intro kind hkind
    cases kind <;> first | decide | cases hkind
  obtain ⟨hs, hknown⟩ := hkinds t.kind hk
  rw [value_of_symbol t h hs]
  exact hknown

theorem fits_foldl_binary (others : List (BinaryOp × Node)) (first : Node)
    (hf : first.fits .operand = true)
    (h : ∀ other ∈ others, other.1.isKnown = true ∧ other.2.fits .operand = true) :
    (others.foldl (fun left other => Node.binary left other.1 other.2) first).fits .operand =
      true := by
  induction others generalizing first with
  | nil => exact hf
  | cons other others ih =>
    obtain ⟨hop, hright⟩ := h other List.mem_cons_self
    refine ih _ ?_ fun x hx => h x (List.mem_cons_of_mem other hx)
    simp [Node.fits, hf, hop, hright]

theorem yields_chain (isOperator : TokenKind → Bool) (operand : Parser Node)
    (hk : ∀ kind, isOperator kind = true → kind.isComparison = true ∨ kind.isAdditive = true ∨
      kind.isMultiplicative = true)
    (h : ∀ c, c.IsSound → Yields operand c fun n => n.fits .operand = true) (c : Cursor)
    (hc : c.IsSound) :
    Yields (Parser.Inner.chain isOperator operand) c fun n => n.fits .operand = true := by
  refine yields_bind _ _ _ _ _ (h c hc) fun first c₁ hc₁ hfirst => ?_
  refine yields_bind _ _ _ _ _ (yields_repeatWhile _ _ (fun other : BinaryOp × Node =>
    other.1.isKnown = true ∧ other.2.fits .operand = true) c₁ hc₁ fun c₂ hc₂ hgo => ?_)
      fun others c₂ hc₂ hothers => ?_
  · refine yields_bind _ _ _ _ _ (yields_advance c₂ hc₂) fun operator c₃ hc₃ hoperator => ?_
    refine yields_bind _ _ _ _ _ (h c₃ hc₃) fun right c₄ hc₄ hright => ?_
    refine yields_pure _ _ _ hc₄ ⟨isKnown_binaryOp operator hoperator.1 ?_, hright⟩
    rw [hoperator.2]
    exact hk c₂.kind hgo
  · exact yields_pure _ _ _ hc₂ (fits_foldl_binary others first hfirst hothers)

/-! ### Expressions -/

/-- The parsers of a level yield nodes that fit everywhere. -/
structure Parser.Inner.Fits (inner : Parser.Inner) : Prop where
  expression : ∀ c, c.IsSound → Yields inner.expression c fun n => n.fits .operand = true
  assignment : ∀ c, c.IsSound → Yields inner.assignment c fun n => n.fits .operand = true
  conditionalTail : ∀ condition : Node, condition.fits .operand = true → ∀ c, c.IsSound →
    Yields (inner.conditionalTail condition) c fun n => n.fits .operand = true
  unnamed : ∀ index target, inner.unnamed index = .ok target → target.isPath = true

variable {inner : Parser.Inner}

theorem yields_bracket (h : inner.Fits) (c : Cursor) (hc : c.IsSound) :
    Yields inner.bracket c fun n => n.fits .operand = true := by
  refine yields_bind _ _ _ _ _ (yields_accept .bang c hc) fun silent c₁ hc₁ _ => ?_
  refine yields_bind _ _ _ _ _ (h.expression c₁ hc₁) fun first c₂ hc₂ hfirst => ?_
  refine yields_bind _ _ _ _ _ (yields_repeatWhile _ _ (fun n : Node => n.fits .operand = true) c₂
    hc₂ fun c₃ hc₃ _ => ?_) fun others c₃ hc₃ hothers => ?_
  · refine yields_bind _ _ _ _ _ (yields_advance c₃ hc₃) fun _ c₄ hc₄ _ => ?_
    exact h.expression c₄ hc₄
  refine yields_bind _ _ _ _ _ (yields_expect .rightBracket _ c₃ hc₃) fun _ c₄ hc₄ _ => ?_
  have hnode : (if others.isEmpty then first else Node.group (first :: others) false).fits
      .operand = true := by
    cases others with
    | nil => exact hfirst
    | cons second others =>
      have hall := fitAll_of_operands (first :: second :: others) fun n hn => by
        rcases List.mem_cons.mp hn with rfl | hn
        · exact hfirst
        · exact hothers n hn
      simp [Node.fits, hall]
  refine yields_pure _ _ _ hc₄ ?_
  cases silent with
  | true => exact fits_of_operand _ .expression hnode
  | false => exact hnode

theorem yields_primary (h : inner.Fits) (c : Cursor) (hc : c.IsSound) :
    Yields inner.primary c fun n => n.fits .operand = true := by
  have hliteral : Yields (Parser.advance >>= fun t => pure (Node.literal (.text t.value))) c
      fun n => n.fits .operand = true :=
    yields_bind _ _ _ _ _ (yields_advance c hc) fun t c₁ hc₁ _ => yields_pure _ _ _ hc₁ rfl
  refine yields_get _ _ _ ?_
  split
  next hk => exact yields_numeral false c hc hk
  next => exact hliteral
  next => exact hliteral
  next => exact yields_bind _ _ _ _ _ (yields_advance c hc) fun _ c₁ hc₁ _ => yields_dollar c₁ hc₁
  next =>
    refine yields_bind _ _ _ _ _ (yields_advance c hc) fun _ c₁ hc₁ _ => ?_
    refine yields_bind _ _ _ _ _ (h.expression c₁ hc₁) fun n c₂ hc₂ hn => ?_
    refine yields_bind _ _ _ _ _ (yields_expect .rightParen _ c₂ hc₂) fun _ c₃ hc₃ _ => ?_
    exact yields_pure _ _ _ hc₃ hn
  next =>
    exact yields_bind _ _ _ _ _ (yields_advance c hc) fun _ c₁ hc₁ _ => yields_bracket h c₁ hc₁
  next =>
    split
    next hminus =>
      simp only [Bool.and_eq_true, decide_eq_true_eq] at hminus
      have hnext : c.next.kind = .number := by
        have hk : ¬c.kind = .endOfText := by
          rw [hminus.1]
          exact TokenKind.noConfusion
        rw [← hminus.2, Cursor.next, if_neg hk]
        simp [Cursor.kind, Cursor.kindAt]
      exact yields_next _ c _ (yields_numeral true c.next (c.isSound_next hc) hnext)
    next => exact yields_fail _ _ _

theorem yields_comparison (h : inner.Fits) (c : Cursor) (hc : c.IsSound) :
    Yields inner.comparison c fun n => n.fits .operand = true := by
  refine yields_chain _ _ (fun _ hk => .inl hk) (fun c hc => ?_) c hc
  refine yields_chain _ _ (fun _ hk => .inr (.inl hk)) (fun c hc => ?_) c hc
  exact yields_chain _ _ (fun _ hk => .inr (.inr hk)) (fun c hc => yields_primary h c hc) c hc

theorem yields_finishAssignment (h : inner.Fits) (target : Reference) (ht : target.isPath = true)
    (c : Cursor) (hc : c.IsSound) (hk : c.kind.isAssignment = true) :
    Yields (inner.finishAssignment target) c fun n => n.fits .operand = true := by
  refine yields_bind _ _ _ _ _ (yields_advance c hc) fun operator c₁ hc₁ hoperator => ?_
  refine yields_bind _ _ _ _ _ (h.assignment c₁ hc₁) fun value c₂ hc₂ hvalue => ?_
  have hknown := isKnown_assignOp operator hoperator.1 (by rw [hoperator.2]; exact hk)
  refine yields_pure _ _ _ hc₂ ?_
  simp [Node.fits, ht, hknown, fits_of_operand value .expression hvalue]

/-- The name that stands for the target of an assignment to no variable is a name. -/
theorem isPath_anonymous (index : Nat) : Reference.isPath ⟨[s!"_anon{index}"], false⟩ = true := by
  have hdigits : ∀ c ∈ Nat.toDigits 10 index, Text.isNameChar c = true := fun c hc => by
    rw [Text.isNameChar, isDigit_of_mem_toDigits index c hc, Bool.or_true]
  have hchars : (s!"_anon{index}").toList = "_anon".toList ++ Nat.toDigits 10 index := by
    have htext : s!"_anon{index}" = "_anon" ++ String.ofList (Nat.toDigits 10 index) := rfl
    rw [htext, String.toList_append]
    exact congrArg _ String.toList_ofList
  simp only [Reference.isPath, List.isEmpty_cons, Bool.not_false, Bool.true_and, List.all_cons,
    List.all_nil, Bool.and_true, hchars]
  show (Text.isNameStart '_' && (['a', 'n', 'o', 'n'] ++ Nat.toDigits 10 index).all
    Text.isNameChar) = true
  rw [List.all_append, List.all_eq_true.mpr hdigits]
  decide

theorem yields_readAssignment (h : inner.Fits) (c : Cursor) (hc : c.IsSound) :
    Yields inner.readAssignment c fun n => n.fits .operand = true := by
  refine yields_bind _ _ _ _ _ (yields_comparison h c hc) fun n c₁ hc₁ hn => ?_
  refine yields_get _ _ _ ?_
  split
  next hk =>
    split
    next target => exact yields_finishAssignment h target hn c₁ hc₁ hk
    next =>
      refine yields_lift _ _ _ _ fun target ht => ?_
      exact yields_finishAssignment h target (h.unnamed c₁.index target ht) c₁ hc₁ hk
  next => exact yields_pure _ _ _ hc₁ hn

/-! ### Conditionals -/

theorem yields_branchPart (h : inner.Fits) (c : Cursor) (hc : c.IsSound) :
    Yields inner.branchPart c fun n => n.fits .operand = true := by
  refine yields_get _ _ _ ?_
  split
  · exact yields_bind _ _ _ _ _ (yields_advance c hc) fun t c₁ hc₁ _ => yields_pure _ _ _ hc₁ rfl
  · exact yields_readAssignment h c hc

/-- A branch is one part, or running text of several. -/
theorem yields_branch (h : inner.Fits) (before : List Node)
    (hb : ∀ n ∈ before, n.fits .operand = true) (c : Cursor) (hc : c.IsSound) :
    Yields (inner.branch before) c fun n => ∀ place : Place, place.holdsProse = true →
      n.fits place = true := by
  refine yields_bind _ _ _ _ _ (yields_repeatWhile _ _ (fun n : Node => n.fits .operand = true) c hc
    fun c hc _ => yields_branchPart h c hc) fun others c₁ hc₁ hothers => ?_
  have hparts : ∀ n ∈ before ++ others, n.fits .operand = true := by
    intro n hn
    rcases List.mem_append.mp hn with hn | hn
    · exact hb n hn
    · exact hothers n hn
  split
  next => exact yields_fail _ _ _
  next part hpart =>
    rw [hpart] at hparts
    refine yields_pure _ _ _ hc₁ fun place _ => fits_of_operand part place ?_
    exact hparts part List.mem_cons_self
  next hnone hone =>
    refine yields_pure _ _ _ hc₁ fun place hplace => ?_
    have hall := fitAll_of_operands _ hparts
    have hlength : 2 ≤ (before ++ others).length := by
      generalize before ++ others = parts at hnone hone
      match parts, hnone, hone with
      | [], hnone, _ => exact absurd rfl hnone
      | [part], _, hone => exact absurd rfl (hone part)
      | _ :: _ :: _, _, _ => simp
    simp only [Node.fits, hplace, decide_eq_true hlength, hall, Bool.or_true, Bool.and_self]

theorem yields_readConditionalTail (h : inner.Fits) (condition : Node)
    (hcondition : condition.fits .operand = true) (c : Cursor) (hc : c.IsSound) :
    Yields (inner.readConditionalTail condition) c fun n => n.fits .operand = true := by
  have hfits : ∀ whenTrue whenFalse : Node, whenTrue.fits .branch = true →
      whenFalse.fits .otherwise = true →
      (Node.conditional condition whenTrue whenFalse).fits .operand = true := by
    intro whenTrue whenFalse ht hf
    simp [Node.fits, fits_of_operand condition .expression hcondition, ht, hf]
  refine yields_bind _ _ _ _ _ (yields_branch h [] (fun n hn => absurd hn List.not_mem_nil) c hc)
    fun whenTrue c₁ hc₁ ht => ?_
  refine yields_bind _ _ _ _ _ (yields_accept .pipe c₁ hc₁) fun more c₂ hc₂ _ => ?_
  cases more with
  | false => exact yields_pure _ _ _ hc₂ (hfits whenTrue .missing (ht .branch rfl) rfl)
  | true =>
    refine yields_bind _ _ _ _ _ (yields_branchPart h c₂ hc₂) fun first c₃ hc₃ hfirst => ?_
    refine yields_get _ _ _ ?_
    split
    · refine yields_bind _ _ _ _ _ (yields_advance c₃ hc₃) fun _ c₄ hc₄ _ => ?_
      refine yields_bind _ _ _ _ _ (h.conditionalTail first hfirst c₄ hc₄)
        fun whenFalse c₅ hc₅ hf => ?_
      exact yields_pure _ _ _ hc₅ (hfits _ _ (ht .branch rfl) (fits_of_operand _ .otherwise hf))
    · refine yields_bind _ _ _ _ _ (yields_branch h [first] (fun n hn => ?_) c₃ hc₃)
        fun whenFalse c₄ hc₄ hf => ?_
      · obtain rfl := List.mem_singleton.mp hn
        exact hfirst
      · exact yields_pure _ _ _ hc₄ (hfits _ _ (ht .branch rfl) (hf .otherwise rfl))

theorem yields_readExpression (h : inner.Fits) (c : Cursor) (hc : c.IsSound) :
    Yields inner.readExpression c fun n => n.fits .operand = true := by
  refine yields_bind _ _ _ _ _ (yields_readAssignment h c hc) fun condition c₁ hc₁ hcondition => ?_
  refine yields_bind _ _ _ _ _ (yields_accept .question c₁ hc₁) fun asks c₂ hc₂ _ => ?_
  cases asks with
  | false => exact yields_pure _ _ _ hc₂ hcondition
  | true => exact yields_readConditionalTail h condition hcondition c₂ hc₂

theorem fits_level (depth : Nat) : (Parser.Inner.level depth).Fits := by
  induction depth with
  | zero =>
    refine ⟨fun c _ => yields_throw _ c _, fun c _ => yields_throw _ c _,
      fun _ _ c _ => yields_throw _ c _, fun index target h => ?_⟩
    cases h
    exact isPath_anonymous index
  | succ depth ih =>
    exact ⟨yields_readExpression ih, yields_readAssignment ih, yields_readConditionalTail ih,
      ih.unnamed⟩

/-! ### Alternatives and rules -/

theorem yields_element (h : inner.Fits) (c : Cursor) (hc : c.IsSound) :
    Yields (Parser.element inner) c fun n => n.fits .operand = true := by
  refine yields_bind _ _ _ _ _ (yields_advance c hc) fun t c₁ hc₁ _ => ?_
  split
  next => exact yields_bracket h c₁ hc₁
  next =>
    refine yields_bind _ _ _ _ _ (yields_dollar c₁ hc₁) fun n c₂ hc₂ hn => ?_
    split
    next target =>
      refine yields_get _ _ _ ?_
      split
      next hk => exact yields_finishAssignment h target hn c₂ hc₂ hk
      next => exact yields_pure _ _ _ hc₂ hn
    next => exact yields_pure _ _ _ hc₂ hn
  next => exact yields_pure _ _ _ hc₁ rfl
  next => exact yields_pure _ _ _ hc₁ rfl

/-- Whether the weight of an alternative is a positive double. -/
def Alternative.IsWeighed (a : Alternative) : Prop :=
  ∃ w, a.weight = .float w ∧ 0 < w

theorem zero_lt_float {t : Token} (hsound : t.isSound = true) (hk : t.kind = .number)
    (h : ¬t.float ≤ 0) : 0 < t.float := by
  rw [Token.isSound, hk] at hsound
  obtain ⟨whole, fraction, hnumeral, -⟩ := ofChars?_of_isPlainNumeral t.value.toList hsound
  have hfloat : t.float = Numeral.toFloat ⟨false, whole, fraction, none⟩ := by
    rw [Token.float, hnumeral]
  obtain ⟨num, den, hnearest⟩ := toFloat_eq_nearest false
    (Decimal.ofDigits (whole ++ fraction.getD [])) (0 - (fraction.getD []).length)
  have heq : t.float = Binary64.nearest false num den := hfloat.trans hnearest
  rw [heq] at h ⊢
  exact zero_lt_nearest h

theorem yields_weight (c : Cursor) (hc : c.IsSound) :
    Yields Parser.weight c fun w => ¬w ≤ 0 ∧ 0 < w := by
  refine yields_get _ _ _ ?_
  split
  · exact yields_fail _ _ _
  split
  next hk =>
    refine yields_bind _ _ _ _ _ (yields_advance c hc) fun t c₁ hc₁ ht => ?_
    split
    next => exact yields_throw _ _ _
    next hpositive =>
      exact yields_pure _ _ _ hc₁ ⟨hpositive, zero_lt_float ht.1 (ht.2.trans hk) hpositive⟩
  next => exact yields_fail _ _ _

theorem mem_trimBreaks (elements : List Node) (n : Node) (h : n ∈ Parser.trimBreaks elements) :
    n ∈ elements := by
  have h := List.dropWhile_suffix _ |>.subset h
  have h := List.dropWhile_suffix _ |>.subset (List.mem_reverse.mp h)
  exact List.mem_reverse.mp h

theorem trimBreaks_ends (elements : List Node) :
    (Parser.trimBreaks elements).head?.all (fun n => !n.isLineBreak) = true ∧
      (Parser.trimBreaks elements).getLast?.all (fun n => !n.isLineBreak) = true := by
  have hhead : ∀ ns : List Node, ∀ n ∈ (ns.dropWhile Node.isLineBreak).head?,
      n.isLineBreak = false := by
    intro ns n hn
    have h := List.head?_dropWhile_not Node.isLineBreak ns
    rw [Option.mem_def.mp hn] at h
    exact h
  refine ⟨?_, ?_⟩
  · rw [Option.all_eq_true]
    intro n hn
    simp [hhead _ n hn]
  · rw [Option.all_eq_true]
    intro n hn
    obtain ⟨front, hfront⟩ : Parser.trimBreaks elements <:+
        (elements.reverse.dropWhile Node.isLineBreak).reverse := List.dropWhile_suffix _
    have hlast : n ∈ (elements.reverse.dropWhile Node.isLineBreak).head? := by
      rw [← List.getLast?_reverse, ← hfront, List.getLast?_append, Option.mem_def.mp hn]
      rfl
    simp [hhead _ n hlast]

theorem yields_alternative (h : inner.Fits) (c : Cursor) (hc : c.IsSound) :
    Yields (Parser.alternative inner) c fun a => a.fits = true ∧ a.IsWeighed := by
  rw [Parser.alternative_eq]
  refine yields_bind _ _ _ _ _ (yields_repeatWhile _ _ (fun n : Node => n.fits .operand = true) c hc
    fun c hc _ => yields_element h c hc) fun elements c₁ hc₁ helements => ?_
  have hfinish : ∀ w c₂, c₂.IsSound → ¬w ≤ 0 ∧ 0 < w →
      Yields (Parser.finishAlternative elements w) c₂ fun a => a.fits = true ∧ a.IsWeighed := by
    intro w c₂ hc₂ hw
    unfold Parser.finishAlternative
    split
    next => exact yields_fail _ _ _
    next hempty =>
      refine yields_pure _ _ _ hc₂ ⟨?_, w, rfl, hw.2⟩
      have hall := fitAll_of_operands (Parser.trimBreaks elements) fun n hn =>
        helements n (mem_trimBreaks elements n hn)
      obtain ⟨hhead, hlast⟩ := trimBreaks_ends elements
      simp only [Alternative.fits, hall, hempty, hhead, hlast, Value.float, decide_eq_false hw.1,
        Bool.not_false, Bool.and_self]
  refine yields_bind _ _ _ _ _ (yields_accept .doubleColon c₁ hc₁) fun weighted c₂ hc₂ _ => ?_
  cases weighted with
  | false => exact hfinish 1 c₂ hc₂ (by decide +kernel)
  | true =>
    exact yields_bind _ _ _ _ _ (yields_weight c₂ hc₂) fun w c₃ hc₃ hw => hfinish w c₃ hc₃ hw

/-- Whether a rule has a name, fits, and has positive weights only. -/
structure Rule.IsRead (r : Rule) : Prop where
  name : Text.isName r.name.toList = true
  fits : r.fits = true
  weights : ∀ a ∈ r.alternatives, a.IsWeighed

theorem yields_rule (h : inner.Fits) (c : Cursor) (hc : c.IsSound) :
    Yields (Parser.rule inner) c Rule.IsRead := by
  refine yields_bind _ _ _ _ _ (yields_expect .dollar _ c hc) fun _ c₁ hc₁ _ => ?_
  refine yields_bind _ _ _ _ _ (yields_expect .identifier _ c₁ hc₁) fun name c₂ hc₂ hname => ?_
  refine yields_bind _ _ _ _ _ (yields_expect .define _ c₂ hc₂) fun _ c₃ hc₃ _ => ?_
  refine yields_bind _ _ _ _ _ (yields_alternative h c₃ hc₃) fun first c₄ hc₄ hfirst => ?_
  refine yields_bind _ _ _ _ _ (yields_repeatWhile _ _
    (fun a : Alternative => a.fits = true ∧ a.IsWeighed) c₄ hc₄ fun c hc _ => ?_)
      fun others c₅ hc₅ hothers => ?_
  · exact yields_bind _ _ _ _ _ (yields_advance c hc) fun _ c hc _ => yields_alternative h c hc
  · refine yields_pure _ _ _ hc₅ ⟨isName_of_identifier name hname.1 hname.2, ?_,
      List.forall_mem_cons.mpr ⟨hfirst.2, fun a ha => (hothers a ha).2⟩⟩
    simp only [Rule.fits, List.isEmpty_cons, Bool.not_false, Bool.true_and, List.all_cons, hfirst.1,
      List.all_eq_true]
    exact fun a ha => (hothers a ha).1

/-! ### Grammars -/

theorem rulesFrom_isRead (h : inner.Fits) (bound : List Token) (c : Cursor) (hc : c.IsSound) :
    ∀ r ∈ (Reading.rulesFrom inner bound c).rules, r.IsRead := by
  induction bound generalizing c with
  | nil => exact fun r hr => nomatch hr
  | cons t bound ih =>
    unfold Reading.rulesFrom
    dsimp only
    split
    next => exact fun r hr => nomatch hr
    next =>
      split
      next => exact fun r hr => nomatch hr
      next rule c₁ hrule =>
        obtain ⟨hc₁, hgood⟩ := yields_rule h c.skipBreaks (c.isSound_skipBreaks hc) rule c₁ hrule
        intro r hr
        rcases List.mem_cons.mp hr with rfl | hr
        · exact hgood
        · exact ih c₁ hc₁ r hr

theorem rules_of_reading (source : String) (ts : List Token) (depth : Nat) (g : Grammar)
    (hscan : Token.scan source = .ok ts)
    (hread : (Reading.ofTokens depth ts).grammar = .ok g) :
    ∃ rules, rules ≠ [] ∧ g = Grammar.ofRules rules ∧ ∀ r ∈ rules, r.IsRead := by
  have hsound : Cursor.IsSound ⟨0, ts⟩ := isSound_of_scanFrom _ _ ts hscan
  have hrules := rulesFrom_isRead (fits_level depth) ts ⟨0, ts⟩ hsound
  unfold Reading.grammar at hread
  split at hread
  next => cases hread
  next =>
    split at hread
    next => cases hread
    next hne =>
      cases hread
      exact ⟨_, by simpa using hne, rfl, hrules⟩

theorem fits_ofRules (rules : List Rule) (hne : rules ≠ []) (h : ∀ r ∈ rules, r.IsRead) :
    (Grammar.ofRules rules).fits = true := by
  obtain ⟨hkeys, hmem, hsome⟩ :=
    Table.ofEntries_facts (rules.map fun rule => (rule.name, rule))
  simp only [Grammar.fits, Grammar.ofRules, Bool.and_eq_true, List.all_eq_true, beq_iff_eq]
  refine ⟨⟨?_, decide_eq_true hkeys⟩, fun entry he => ?_⟩
  · simpa using hsome (by simpa using hne)
  · obtain ⟨r, hr, rfl⟩ := List.mem_map.mp (hmem entry he)
    exact ⟨⟨(h r hr).name, rfl⟩, (h r hr).fits⟩

theorem exists_reading (source : String) (depth : Nat) (check : Grammar → Bool)
    (h : (match Token.scan source >>= fun ts => (Reading.ofTokens depth ts).grammar with
      | .ok g => check g
      | .error _ => false) = true) :
    ∃ ts g, Token.scan source = .ok ts ∧ (Reading.ofTokens depth ts).grammar = .ok g ∧
      check g = true := by
  cases hg : Token.scan source >>= fun ts => (Reading.ofTokens depth ts).grammar with
  | error fault =>
    rw [hg] at h
    cases h
  | ok g =>
    rw [hg] at h
    obtain ⟨ts, hscan, hread⟩ := (bind_ok_iff _ _ _).mp hg
    exact ⟨ts, g, hscan, hread, h⟩

/-- A grammar that is read from the tokens of a text fits. -/
theorem fits_of_reading (source : String) (ts : List Token) (depth : Nat) (g : Grammar)
    (hscan : Token.scan source = .ok ts)
    (hread : (Reading.ofTokens depth ts).grammar = .ok g) : g.fits = true := by
  obtain ⟨rules, hne, rfl, hrules⟩ := rules_of_reading source ts depth g hscan hread
  exact fits_ofRules rules hne hrules

theorem isWeighed_of_reading (source : String) (ts : List Token) (depth : Nat) (g : Grammar)
    (hscan : Token.scan source = .ok ts)
    (hread : (Reading.ofTokens depth ts).grammar = .ok g) :
    ∀ entry ∈ g.rules, ∀ a ∈ entry.2.alternatives, a.IsWeighed := by
  obtain ⟨rules, -, rfl, hrules⟩ := rules_of_reading source ts depth g hscan hread
  intro entry he
  obtain ⟨-, hmem, -⟩ := Table.ofEntries_facts (rules.map fun rule => (rule.name, rule))
  obtain ⟨r, hr, rfl⟩ := List.mem_map.mp (hmem entry he)
  exact (hrules r hr).weights

end ProseGrammar
