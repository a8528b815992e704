import ProseGrammar.Proofs.Grammar.Form
import ProseGrammar.Proofs.Grammar.Seams

/-!
# Productions side by side

Every production reads the same on both sides of a seam. Apart from the tail of a conditional and
from an alternative, each takes a token, so an expression nests at most as deep as there are tokens,
and the readers of an alternative reach the seam together.
-/

namespace ProseGrammar

namespace Seam

variable {α : Type} {s : Seam} {c d : Cursor} {n : Nat}

/-! ### References -/

theorem segments_of_stop (t : Token) (ts : List Token)
    (h : ∀ p name rest, ts = p :: name :: rest → p.kind ≠ .dot ∨ name.kind ≠ .identifier) :
    Parser.segments t ts = [] := by
  cases ts with
  | nil => rfl
  | cons p ts =>
    cases ts with
    | nil => rfl
    | cons name rest =>
      rw [Parser.segments, if_neg]
      rcases h p name rest rfl with hp | hname
      · simp [hp]
      · simp [hname]

theorem segments_tail (t : Token) : Parser.segments t s.tail = [] := by
  apply segments_of_stop
  intro p name rest htail
  have hkind := s.tail_kind 0
  rw [htail] at hkind
  have hp : p.kind = .endOfText ∨ p.kind = .newline := hkind
  rcases hp with hp | hp <;> exact .inl (by rw [hp]; nofun)

/-- A path goes on in both lists, and is followed by twins. -/
theorem segments_along (t u : Token) (ts us : List Token) (hk : t.kind = .identifier)
    (h : s.Along (t :: ts) (u :: us)) :
    Parser.segments t ts = Parser.segments u us ∧
      s.Along (ts.drop (2 * (Parser.segments t ts).length))
        (us.drop (2 * (Parser.segments t ts).length)) := by
  -- two tokens at a time, as the parser goes
  induction hlen : ts.length using Nat.strongRecOn generalizing t u ts us with
  | ind m ih =>
  cases h with
  | last hend => exact absurd (hk.symm.trans hend) nofun
  | cons _ _ hjoint hafter =>
  cases hafter with
  | last hend htail hlast =>
    rw [htail, segments_tail]
    exact ⟨rfl, .last hend rfl hlast⟩
  | @cons p p' ts us hkind hpoint hjoint' hafter =>
  cases hafter with
  | @last e us hend htail hlast =>
    have hname : e.kind ≠ .identifier := by rw [hend]; nofun
    have hnone : Parser.segments t [p, e] = [] := by
      apply segments_of_stop
      rintro _ _ _ ⟨⟩
      exact .inr hname
    have hnone' : Parser.segments u (p' :: us) = [] := by
      apply segments_of_stop
      rintro _ name' rest ⟨⟩
      right
      have hkind := s.tail_kind 0
      rw [← htail] at hkind
      have hname' : name'.kind = .endOfText ∨ name'.kind = .newline := hkind
      rcases hname' with hname' | hname' <;> rw [hname'] <;> nofun
    rw [hnone, hnone']
    exact ⟨rfl, .cons hkind hpoint hjoint' (.last hend htail hlast)⟩
  | @cons name name' ts us hkind' hname hjoint'' hafter =>
    have htest : (p.kind = .dot && name.kind = .identifier && t.touches p && p.touches name) =
        (p'.kind = .dot && name'.kind = .identifier && u.touches p' && p'.touches name') := by
      rw [← hpoint.kind, ← hname.kind]
      by_cases hdot : p.kind = .dot
      · by_cases hident : name.kind = .identifier
        · rw [hjoint p rfl p' rfl (by rw [hk]; rfl) (by rw [hdot]; rfl),
            hjoint' name rfl name' rfl (by rw [hdot]; rfl) (by rw [hident]; rfl)]
        · simp [hident]
      · simp [hdot]
    rw [Parser.segments, Parser.segments, ← htest]
    split
    next hdot =>
      have hident : name.kind = .identifier := by
        simp only [Bool.and_eq_true, decide_eq_true_eq] at hdot
        exact hdot.1.1.2
      have hshort : ts.length < m := by
        rw [← hlen, List.length_cons, List.length_cons]
        omega
      obtain ⟨hsegments, hdrop⟩ := ih ts.length hshort name name' ts us hident
        (.cons hkind' hname hjoint'' hafter) rfl
      rw [hname.value, hsegments]
      rw [hsegments] at hdrop
      exact ⟨rfl, hdrop⟩
    next => exact ⟨rfl, .cons hkind hpoint hjoint' (.cons hkind' hname hjoint'' hafter)⟩

theorem parallel_path (t u : Token) (hk : t.kind = .identifier) (htaken : s.Taken t u c d)
    (hn : c.rest.length < n) : s.Parallel n (Parser.path t) (Parser.path u) c d := by
  obtain ⟨hsegments, hdrop⟩ := segments_along t u c.rest d.rest hk htaken.along
  apply parallel_get
  dsimp only
  rw [← hsegments, htaken.twins.value]
  apply parallel_set
  apply parallel_pure
  · exact ⟨fun hs => congrArg (· + _) (htaken.beside.index hs), hdrop⟩
  · rw [List.length_drop]
    omega

theorem parallel_dollar (h : s.Beside c d) :
    s.Parallel c.rest.length Parser.dollar Parser.dollar c d := by
  apply parallel_bind (parallel_accept .dollar nofun nofun h)
  intro knowledge c₁ d₁ h₁ hlen₁
  split
  · apply parallel_expect .dot nofun nofun h₁
    intro _ _ c₂ d₂ _ hpoint hlen₂
    apply parallel_expect .identifier nofun nofun hpoint.beside
    intro t u c₃ d₃ hk hname hlen₃
    apply parallel_bind (parallel_path t u hk hname (Nat.lt_succ_self _))
    intro path c₄ d₄ h₄ hlen₄
    exact parallel_pure _ h₄ (by omega)
  · apply parallel_expect .identifier nofun nofun h₁
    intro t u c₂ d₂ hk hname hlen₂
    apply parallel_bind (parallel_path t u hk hname (Nat.lt_succ_self _))
    intro path c₃ d₃ h₃ hlen₃
    apply parallel_get
    rw [h₃.class_eq TokenKind.makesVariable rfl, hname.twins.value]
    split
    · exact parallel_pure _ h₃ (by omega)
    · exact parallel_pure _ h₃ (by omega)

/-! ### Expressions -/

theorem outcomes_number (t u : Token) (htwins : s.Twins t u) (hk : t.kind = .number) :
    s.Outcomes Eq t.number? u.number? := by
  have hvalue : t.number? = u.number? := congrArg Value.numberOfText? htwins.value
  rw [← hvalue]
  cases hnumber : t.number? with
  | error fault => exact .error fun hs => ⟨fault, rfl, s.number (htwins.alike hs) hk hnumber⟩
  | ok number => exact .ok rfl

theorem parallel_numeral (negative : Bool) (h : s.Beside c d) (hk : c.kind = .number) :
    s.Parallel c.rest.length (Parser.Inner.numeral negative) (Parser.Inner.numeral negative) c d := by
  apply parallel_advance h (by rw [hk]; nofun)
  intro t u c₁ d₁ ht htaken hlen
  apply parallel_lift (outcomes_number t u htaken.twins (ht.trans hk))
  intro number
  cases number with
  | some n => exact parallel_pure _ htaken.beside hlen
  | none => exact parallel_pure _ htaken.beside hlen

/-- The parsers of an inner level go side by side if at most `n` tokens are left. -/
structure Inners (s : Seam) (n : Nat) (inner other : Parser.Inner) : Prop where
  expression : ∀ c d, s.Beside c d → c.rest.length ≤ n →
    s.Parallel c.rest.length inner.expression other.expression c d
  assignment : ∀ c d, s.Beside c d → c.rest.length ≤ n →
    s.Parallel c.rest.length inner.assignment other.assignment c d
  conditionalTail : ∀ condition c d, s.Beside c d → c.rest.length ≤ n →
    s.Parallel (c.rest.length + 1) (inner.conditionalTail condition)
      (other.conditionalTail condition) c d
  unnamed : ∀ c d, s.Beside c d → s.Outcomes Eq (inner.unnamed c.index) (other.unnamed d.index)

variable {inner other : Parser.Inner}

theorem parallel_bracket (hi : s.Inners n inner other) (h : s.Beside c d)
    (hn : c.rest.length ≤ n) : s.Parallel c.rest.length inner.bracket other.bracket c d := by
  apply parallel_bind (parallel_accept .bang nofun nofun h)
  intro silent c₁ d₁ h₁ hlen₁
  apply parallel_bind (hi.expression c₁ d₁ h₁ (by omega))
  intro first c₂ d₂ h₂ hlen₂
  apply parallel_bind (parallel_repeatWhile (n := n) _ _ _ h₂ (by omega) ?_ ?_)
  · intro others c₃ d₃ h₃ hlen₃
    apply parallel_expect .rightBracket nofun nofun h₃
    intro _ _ c₄ d₄ _ htaken hlen₄
    exact parallel_pure _ htaken.beside (by omega)
  · exact fun c d h => h.class_eq (fun k => k = .semicolon) rfl
  · intro c d h hlen hsemicolon
    apply parallel_advance h (by rw [of_decide_eq_true hsemicolon]; nofun)
    intro _ _ c' d' _ htaken hlen'
    exact parallel_mono (hi.expression c' d' htaken.beside (by omega)) (by omega)

theorem parallel_text (h : s.Beside c d) (hk : c.kind ≠ .endOfText) :
    s.Parallel c.rest.length (Parser.advance >>= fun t => pure (Node.literal (.text t.value)))
      (Parser.advance >>= fun t => pure (Node.literal (.text t.value))) c d := by
  apply parallel_advance h hk
  intro t u c₁ d₁ _ htaken hlen
  rw [htaken.twins.value]
  exact parallel_pure _ htaken.beside hlen

theorem parallel_primary (hi : s.Inners n inner other) (h : s.Beside c d)
    (hn : c.rest.length ≤ n + 1) : s.Parallel c.rest.length inner.primary other.primary c d := by
  have hunexpected : s.Parallel c.rest.length
      (Parser.fail (.unexpectedToken c.current.value) : Parser Node)
      (Parser.fail (.unexpectedToken d.current.value)) c d :=
    parallel_fail _ _ h fun hs => by rw [(h.current hs).value]
  apply parallel_get
  by_cases hk : c.kind = .endOfText
  · rw [hk]
    rcases h.kind_end hk with hd | hd <;> rw [hd] <;> exact hunexpected
  have hahead : decide (d.kindAt 1 = .number) = decide (c.kindAt 1 = .number) :=
    h.class_ahead hk (fun k => k = .number) rfl
  rw [h.kind hk, hahead]
  split
  next hnumber => exact parallel_numeral false h hnumber
  next => exact parallel_text h hk
  next => exact parallel_text h hk
  next =>
    apply parallel_advance h hk
    intro _ _ c₁ d₁ _ htaken hlen
    exact parallel_mono (parallel_dollar htaken.beside) (by omega)
  next =>
    apply parallel_advance h hk
    intro _ _ c₁ d₁ _ htaken hlen
    apply parallel_bind (hi.expression c₁ d₁ htaken.beside (by omega))
    intro node c₂ d₂ h₂ hlen₂
    apply parallel_expect .rightParen nofun nofun h₂
    intro _ _ c₃ d₃ _ htaken₃ hlen₃
    exact parallel_pure node htaken₃.beside (by omega)
  next =>
    apply parallel_advance h hk
    intro _ _ c₁ d₁ _ htaken hlen
    exact parallel_mono (parallel_bracket hi htaken.beside (by omega)) (by omega)
  next =>
    split
    next hminus =>
      have hnumber : c.next.kind = .number := by
        simp only [Bool.and_eq_true, decide_eq_true_eq] at hminus
        exact (kindAt_succ c hk 0).symm.trans hminus.2
      have hlen := (h.taken hk).2.2
      apply parallel_next
      exact parallel_mono (parallel_numeral true (h.next hk) hnumber) (Nat.le_of_lt hlen)
    next => exact hunexpected

/-- Operands with operators of one class between them, which has neither the end of the text nor the
line break. -/
theorem parallel_chain (isOperator : TokenKind → Bool) (operand operand' : Parser Node)
    (hend : isOperator .endOfText = false) (hbreak : isOperator .newline = false)
    (ho : ∀ c d, s.Beside c d → c.rest.length ≤ n + 1 →
      s.Parallel c.rest.length operand operand' c d)
    (c d : Cursor) (h : s.Beside c d) (hn : c.rest.length ≤ n + 1) :
    s.Parallel c.rest.length (Parser.Inner.chain isOperator operand)
      (Parser.Inner.chain isOperator operand') c d := by
  apply parallel_bind (ho c d h hn)
  intro first c₁ d₁ h₁ hlen₁
  apply parallel_bind (parallel_repeatWhile (n := n + 1) _ _ _ h₁ (by omega) ?_ ?_)
  · intro others c₂ d₂ h₂ hlen₂
    exact parallel_pure _ h₂ (by omega)
  · exact fun c d h => h.class_eq isOperator (hend.trans hbreak.symm)
  · intro c d h hlen hoperator
    have hk : c.kind ≠ .endOfText := by
      intro hk
      rw [hk, hend] at hoperator
      cases hoperator
    apply parallel_advance h hk
    intro t u c' d' _ htaken hlen'
    rw [htaken.twins.value]
    apply parallel_bind (ho c' d' htaken.beside (by omega))
    intro right c'' d'' h'' hlen''
    exact parallel_pure _ h'' (by omega)

theorem parallel_comparison (hi : s.Inners n inner other) (h : s.Beside c d)
    (hn : c.rest.length ≤ n + 1) :
    s.Parallel c.rest.length inner.comparison other.comparison c d := by
  have hprimary : ∀ c d, s.Beside c d → c.rest.length ≤ n + 1 →
      s.Parallel c.rest.length inner.primary other.primary c d :=
    fun c d h hn => parallel_primary hi h hn
  have hproduct := parallel_chain TokenKind.isMultiplicative _ _ rfl rfl hprimary
  have hsum := parallel_chain TokenKind.isAdditive _ _ rfl rfl hproduct
  exact parallel_chain TokenKind.isComparison _ _ rfl rfl hsum c d h hn

theorem parallel_finishAssignment (hi : s.Inners n inner other) (target : Reference)
    (h : s.Beside c d) (hk : c.kind.isAssignment = true) (hn : c.rest.length ≤ n + 1) :
    s.Parallel c.rest.length (inner.finishAssignment target) (other.finishAssignment target) c d := by
  apply parallel_advance h
  · intro hend
    rw [hend] at hk
    cases hk
  · intro t u c₁ d₁ _ htaken hlen
    rw [htaken.twins.value]
    apply parallel_bind (hi.assignment c₁ d₁ htaken.beside (by omega))
    intro value c₂ d₂ h₂ hlen₂
    exact parallel_pure _ h₂ (by omega)

theorem parallel_readAssignment (hi : s.Inners n inner other) (h : s.Beside c d)
    (hn : c.rest.length ≤ n + 1) :
    s.Parallel c.rest.length inner.readAssignment other.readAssignment c d := by
  apply parallel_bind (parallel_comparison hi h hn)
  intro node c₁ d₁ h₁ hlen₁
  apply parallel_get
  rw [h₁.class_eq TokenKind.isAssignment rfl]
  split
  next hk =>
    have hfinish : ∀ target, s.Parallel c.rest.length (inner.finishAssignment target)
        (other.finishAssignment target) c₁ d₁ := fun target =>
      parallel_mono (parallel_finishAssignment hi target h₁ hk (by omega)) (Nat.le_of_lt hlen₁)
    split
    next target => exact hfinish target
    next => exact parallel_lift (hi.unnamed c₁ d₁ h₁) hfinish
  next => exact parallel_pure node h₁ hlen₁

theorem parallel_branchPart (hi : s.Inners n inner other) (h : s.Beside c d)
    (hn : c.rest.length ≤ n + 1) :
    s.Parallel c.rest.length inner.branchPart other.branchPart c d := by
  apply parallel_get
  rw [h.class_eq TokenKind.isBranchText rfl]
  split
  next hk =>
    apply parallel_text h
    intro hend
    rw [hend] at hk
    cases hk
  next => exact parallel_readAssignment hi h hn

theorem parallel_branch (hi : s.Inners n inner other) (before : List Node) (h : s.Beside c d)
    (hn : c.rest.length ≤ n + 1) :
    s.Parallel (c.rest.length + 1) (inner.branch before) (other.branch before) c d := by
  apply parallel_bind (parallel_repeatWhile (n := n + 1) _ _ _ h hn ?_ ?_)
  · intro others c₁ d₁ h₁ hlen₁
    split
    · exact parallel_fail _ _ h₁ fun _ => rfl
    · exact parallel_pure _ h₁ hlen₁
    · exact parallel_pure _ h₁ hlen₁
  · exact fun c d h => h.class_eq (fun k => !k.endsBranch) rfl
  · exact fun c d h hn _ => parallel_branchPart hi h hn

theorem parallel_readConditionalTail (hi : s.Inners n inner other) (condition : Node)
    (h : s.Beside c d) (hn : c.rest.length ≤ n + 1) :
    s.Parallel (c.rest.length + 1) (inner.readConditionalTail condition)
      (other.readConditionalTail condition) c d := by
  apply parallel_bind (parallel_branch hi [] h hn)
  intro whenTrue c₁ d₁ h₁ hlen₁
  apply parallel_bind (parallel_accept .pipe nofun nofun h₁)
  intro more c₂ d₂ h₂ hlen₂
  split
  · apply parallel_bind (parallel_branchPart hi h₂ (by omega))
    intro first c₃ d₃ h₃ hlen₃
    apply parallel_get
    have htest : (decide (d₃.kind = .question) && !(d₃.kindAt 1).endsBranch) =
        (decide (c₃.kind = .question) && !(c₃.kindAt 1).endsBranch) := by
      rw [h₃.class_eq (fun k => k = .question) rfl]
      by_cases hk : c₃.kind = .question
      · rw [h₃.class_ahead (by rw [hk]; nofun) TokenKind.endsBranch rfl]
      · rw [decide_eq_false hk, Bool.false_and, Bool.false_and]
    rw [htest]
    split
    next hasks =>
      have hk : c₃.kind ≠ .endOfText := by
        intro hend
        rw [hend] at hasks
        cases hasks
      apply parallel_advance h₃ hk
      intro _ _ c₄ d₄ _ htaken hlen₄
      apply parallel_bind (hi.conditionalTail first c₄ d₄ htaken.beside (by omega))
      intro whenFalse c₅ d₅ h₅ hlen₅
      exact parallel_pure _ h₅ (by omega)
    next =>
      apply parallel_bind (parallel_branch hi [first] h₃ (by omega))
      intro whenFalse c₄ d₄ h₄ hlen₄
      exact parallel_pure _ h₄ (by omega)
  · exact parallel_pure _ h₂ (by omega)

theorem parallel_readExpression (hi : s.Inners n inner other) (h : s.Beside c d)
    (hn : c.rest.length ≤ n + 1) :
    s.Parallel c.rest.length inner.readExpression other.readExpression c d := by
  apply parallel_bind (parallel_readAssignment hi h hn)
  intro condition c₁ d₁ h₁ hlen₁
  apply parallel_bind (parallel_accept .question nofun nofun h₁)
  intro asks c₂ d₂ h₂ hlen₂
  split
  · exact parallel_mono (parallel_readConditionalTail hi condition h₂ (by omega)) (by omega)
  · exact parallel_pure condition h₂ (by omega)

theorem inners_outer (hi : s.Inners n inner other) : s.Inners (n + 1) inner.outer other.outer where
  expression _ _ h hn := parallel_readExpression hi h hn
  assignment _ _ h hn := parallel_readAssignment hi h hn
  conditionalTail condition _ _ h hn := parallel_readConditionalTail hi condition h hn
  unnamed := hi.unnamed

theorem inners_mono {m : Nat} (hi : s.Inners n inner other) (hm : m ≤ n) :
    s.Inners m inner other where
  expression c d h hn := hi.expression c d h (Nat.le_trans hn hm)
  assignment c d h hn := hi.assignment c d h (Nat.le_trans hn hm)
  conditionalTail condition c d h hn := hi.conditionalTail condition c d h (Nat.le_trans hn hm)
  unnamed := hi.unnamed

/-- Expressions nest at most as deep as there are tokens, so no level below the deepest one is needed
if there are as many levels as tokens. -/
theorem inners_levelBy (names names' : Nat → Except Fault Reference)
    (hnames : ∀ c d, s.Beside c d → s.Outcomes Eq (names c.index) (names' d.index))
    (depth n : Nat) (h : s.strict → s.Answers .nesting .nesting ∨ n ≤ depth) :
    s.Inners n (Parser.Inner.levelBy names depth) (Parser.Inner.levelBy names' depth) := by
  induction depth generalizing n with
  | zero =>
    have hrefused : ∀ (k : Nat) (c d : Cursor), s.Beside c d → c.rest.length ≤ n →
        s.Parallel k (throw .nesting : Parser Node) (throw .nesting) c d := by
      intro k c d hb hn
      refine .error fun hs => ⟨_, rfl, ?_⟩
      rcases h hs with hdeep | hzero
      · exact hdeep
      · have hpos := hb.pos
        omega
    exact ⟨fun c => hrefused _ c, fun c => hrefused _ c, fun _ c => hrefused _ c, hnames⟩
  | succ depth ih =>
    have hinner : s.Inners (n - 1) (Parser.Inner.levelBy names depth)
        (Parser.Inner.levelBy names' depth) := by
      apply ih
      intro hs
      refine (h hs).imp_right fun hlevels => ?_
      omega
    exact inners_mono (inners_outer hinner) (by omega)

/-! ### Alternatives -/

theorem parallel_element (hi : s.Inners n inner other) (h : s.Beside c d)
    (hk : c.kind ≠ .endOfText) (hn : c.rest.length ≤ n + 1) :
    s.Parallel c.rest.length (Parser.element inner) (Parser.element other) c d := by
  apply parallel_advance h hk
  intro t u c₁ d₁ _ htaken hlen₁
  rw [htaken.twins.kind, htaken.twins.value]
  split
  · exact parallel_mono (parallel_bracket hi htaken.beside (by omega)) (Nat.le_of_lt hlen₁)
  · apply parallel_bind (parallel_dollar htaken.beside)
    intro node c₂ d₂ h₂ hlen₂
    split
    next target =>
      apply parallel_get
      rw [h₂.class_eq TokenKind.isAssignment rfl]
      split
      next hassign =>
        exact parallel_mono (parallel_finishAssignment hi target h₂ hassign (by omega)) (by omega)
      next => exact parallel_pure _ h₂ (by omega)
    next => exact parallel_pure _ h₂ (by omega)
  · exact parallel_pure _ htaken.beside hlen₁
  · exact parallel_pure _ htaken.beside hlen₁

theorem parallel_weight (h : s.Beside c d) :
    s.Parallel (c.rest.length + 1) Parser.weight Parser.weight c d := by
  have hminus : (decide (d.kind = .minus) && decide (d.kindAt 1 = .number)) =
      (decide (c.kind = .minus) && decide (c.kindAt 1 = .number)) := by
    rw [h.class_eq (fun k => k = .minus) rfl]
    by_cases hk : c.kind = .minus
    · rw [h.class_ahead (by rw [hk]; nofun) (fun k => k = .number) rfl]
    · rw [decide_eq_false hk, Bool.false_and, Bool.false_and]
  apply parallel_get
  rw [hminus]
  split
  next => exact parallel_fail _ _ h fun _ => rfl
  next =>
  by_cases hk : c.kind = .number
  · rw [if_pos hk, if_pos ((h.kind_iff .number nofun nofun).mpr hk)]
    apply parallel_advance h (by rw [hk]; nofun)
    intro t u c₁ d₁ _ htaken hlen
    have hfloat : t.float = u.float := by rw [Token.float, Token.float, htaken.twins.value]
    rw [hfloat]
    split
    · exact .error fun hs => ⟨_, rfl, s.syntactic _ (htaken.twins.alike hs)⟩
    · exact parallel_pure _ htaken.beside (Nat.lt_succ_of_lt hlen)
  · rw [if_neg hk, if_neg fun hd => hk ((h.kind_iff .number nofun nofun).mp hd)]
    exact parallel_fail _ _ h fun _ => rfl

/-- Behind an alternative, the second cursor may already have passed the line breaks of the seam. -/
def Past (s : Seam) (c d : Cursor) : Prop :=
  s.Beside c d ∨ ¬s.strict ∧ c.kind = .endOfText ∧ c.rest.length = 1 ∧ d.rest = s.start

theorem Past.pos (h : s.Past c d) : 0 < c.rest.length := by
  rcases h with h | ⟨_, _, hlen, _⟩
  · exact h.pos
  · omega

theorem Past.length_le (h : s.Past c d) : c.rest.length ≤ d.rest.length := by
  have hstart := List.length_pos_iff.mpr s.started
  rcases h with h | ⟨_, _, hlen, hd⟩
  · have hboth := (along_length h.rest).2
    rw [tail, List.length_append] at hboth
    omega
  · rw [hd]
    omega

theorem Past.kind_iff (h : s.Past c d) (kind : TokenKind) (hend : kind ≠ .endOfText)
    (hbreak : kind ≠ .newline) (hdollar : kind ≠ .dollar) : d.kind = kind ↔ c.kind = kind := by
  rcases h with h | ⟨_, hk, _, hd⟩
  · exact h.kind_iff kind hend hbreak
  · obtain ⟨index, us⟩ := d
    subst hd
    have hstart : Cursor.kind ⟨index, s.start⟩ = .endOfText ∨
        Cursor.kind ⟨index, s.start⟩ = .dollar := s.start_kind
    rw [hk]
    refine ⟨fun hkind => ?_, fun hkind => absurd hkind.symm hend⟩
    rcases hstart with hstart | hstart
    · exact absurd (hkind.symm.trans hstart) hend
    · exact absurd (hkind.symm.trans hstart) hdollar

theorem atElement_start (index : Nat) : Parser.atElement ⟨index, s.start⟩ = false := by
  unfold Parser.atElement
  rcases s.endsOrStarts with h | ⟨_, h⟩
  · have hk : Cursor.kind ⟨index, s.start⟩ = .endOfText := h
    rw [hk]
    rfl
  · have hrule : Cursor.atRuleStart ⟨index, s.start⟩ = true := h
    rw [hrule, Bool.not_true, Bool.and_false]

/-- Line breaks in front of the end of an alternative are read as elements. -/
theorem repeatFrom_breaks (other : Parser.Inner) (breaks start : List Token)
    (hbreaks : ∀ t ∈ breaks, t.kind = .newline)
    (hstart : ∀ index, Parser.atElement ⟨index, start⟩ = false) (bound : List Token) (index : Nat)
    (hb : (breaks ++ start).length ≤ bound.length) :
    Parser.repeatFrom Parser.atElement (Parser.element other) bound ⟨index, breaks ++ start⟩ =
      .ok (List.replicate breaks.length .lineBreak, ⟨index + breaks.length, start⟩) := by
  induction breaks generalizing bound index with
  | nil => exact Parser.repeatFrom_stop (hstart index) bound
  | cons t breaks ih =>
    obtain ⟨ht, hrest⟩ := List.forall_mem_cons.mp hbreaks
    obtain ⟨kind, value, p⟩ := t
    obtain rfl : kind = .newline := ht
    cases bound with
    | nil => cases hb
    | cons u bound =>
      have hgo : Parser.atElement ⟨index, ⟨.newline, value, p⟩ :: breaks ++ start⟩ = true := rfl
      have hitem : Parser.element other ⟨index, ⟨.newline, value, p⟩ :: breaks ++ start⟩ =
          .ok (.lineBreak, ⟨index + 1, breaks ++ start⟩) := rfl
      have hothers := ih hrest bound (index + 1) (Nat.le_of_succ_le_succ hb)
      rw [Parser.repeatFrom_next hgo hitem hothers u, List.length_cons, Nat.add_right_comm]
      rfl

/-- The elements of an alternative are the same; where the first list ends, the line breaks of the
seam are read as well. -/
theorem outcomes_elements (hi : s.Inners n inner other) (bound bound' : List Token) (c d : Cursor)
    (h : s.Beside c d) (hn : c.rest.length ≤ n + 1) (hb : c.rest.length ≤ bound.length)
    (hb' : c.rest.length + s.tail.length ≤ bound'.length + 1) :
    s.Outcomes (fun x y => (∃ k, y.1 = x.1 ++ List.replicate k .lineBreak) ∧ s.Past x.2 y.2 ∧
        x.2.rest.length ≤ c.rest.length)
      (Parser.repeatFrom Parser.atElement (Parser.element inner) bound c)
      (Parser.repeatFrom Parser.atElement (Parser.element other) bound' d) := by
  have htail : 0 < s.tail.length := by
    have hstart := List.length_pos_iff.mpr s.started
    rw [tail, List.length_append]
    omega
  induction bound generalizing bound' c d with
  | nil =>
    have hpos := h.pos
    rw [List.length_nil] at hb
    omega
  | cons t bound ih =>
    -- at the seam the first list has no more elements, the second one has its line breaks
    by_cases hk : c.kind = .endOfText
    · obtain ⟨hlen, hd⟩ := h.seam hk
      obtain ⟨index, us⟩ := d
      subst hd
      have hstop : Parser.atElement c = false := by
        unfold Parser.atElement
        rw [hk]
        rfl
      have hbreaks := repeatFrom_breaks other s.breaks s.start s.onlyBreaks atElement_start bound'
        index (by rw [hlen] at hb'; rw [← tail]; omega)
      rw [← tail] at hbreaks
      rw [Parser.repeatFrom_stop hstop, hbreaks]
      refine .ok ⟨⟨s.breaks.length, rfl⟩, ?_, Nat.le_refl _⟩
      by_cases hs : s.strict
      · have hnone := s.noBreaks hs
        have hall := h.rest
        rw [tail, hnone, List.nil_append] at hall
        rw [hnone]
        exact .inl ⟨h.index, hall⟩
      · exact .inr ⟨hs, hk, hlen, rfl⟩
    · cases bound' with
      | nil =>
        have hpos := h.pos
        rw [List.length_nil] at hb'
        omega
      | cons u bound' =>
        have hgo : Parser.atElement d = Parser.atElement c := by
          unfold Parser.atElement
          rw [h.kind hk, h.atRuleStart]
        rw [List.length_cons] at hb hb'
        rw [Parser.repeatFrom_cons, Parser.repeatFrom_cons, hgo]
        split
        next =>
          apply outcomes_bind (parallel_element hi h hk hn)
          intro x y hxy
          obtain ⟨hsame, hbeside, hlen⟩ := hxy
          apply outcomes_bind (ih bound' x.2 y.2 hbeside (by omega) (by omega) (by omega))
          intro xs ys hall
          obtain ⟨⟨k, hmore⟩, hpast, hlen'⟩ := hall
          rw [hsame, hmore]
          exact .ok ⟨⟨k, rfl⟩, hpast, Nat.le_trans hlen' (Nat.le_of_lt hlen)⟩
        next => exact .ok ⟨⟨0, rfl⟩, .inl h, Nat.le_refl _⟩

theorem trimBreaks_replicate (elements : List Node) (k : Nat) :
    Parser.trimBreaks (elements ++ List.replicate k .lineBreak) = Parser.trimBreaks elements := by
  unfold Parser.trimBreaks
  rw [List.reverse_append, List.reverse_replicate, List.dropWhile_append_of_pos]
  intro node hnode
  rw [List.eq_of_mem_replicate hnode]
  rfl

theorem accept_other (kind : TokenKind) (next : Bool → Parser α) (c : Cursor) (h : c.kind ≠ kind) :
    (Parser.accept kind >>= next) c = next false c := by
  have hstep : Parser.accept kind c =
      (if c.kind = kind then (do let _ ← Parser.advance; return true) else return false : Parser Bool)
        c := rfl
  have hnone : Parser.accept kind c = .ok (false, c) := by
    rw [hstep, if_neg h]
    rfl
  exact congrArg (fun x => x >>= fun p => next p.1 p.2) hnone

theorem parallel_finishAlternative (elements : List Node) (w : Float) (h : s.Beside c d) :
    s.Parallel (c.rest.length + 1) (Parser.finishAlternative elements w)
      (Parser.finishAlternative elements w) c d := by
  unfold Parser.finishAlternative
  split
  · exact parallel_fail _ _ h fun _ => rfl
  · exact parallel_pure _ h (Nat.lt_succ_self _)

theorem outcomes_alternative (hi : s.Inners n inner other) (h : s.Beside c d)
    (hn : c.rest.length ≤ n + 1) :
    s.Outcomes (fun x y => x.1 = y.1 ∧ s.Past x.2 y.2 ∧ x.2.rest.length ≤ c.rest.length)
      (Parser.alternative inner c) (Parser.alternative other d) := by
  have hd := (along_length h.rest).2
  rw [Parser.alternative_eq, Parser.alternative_eq]
  apply outcomes_bind (outcomes_elements hi c.rest d.rest c d h hn (Nat.le_refl _) (by omega))
  rintro ⟨elements, c₁⟩ ⟨elements', d₁⟩ ⟨⟨k, hmore⟩, hpast, hlen₁⟩
  have hfinish : Parser.finishAlternative elements' = Parser.finishAlternative elements := by
    have htrim : Parser.trimBreaks elements' = Parser.trimBreaks elements :=
      (congrArg Parser.trimBreaks hmore).trans (trimBreaks_replicate elements k)
    funext w
    unfold Parser.finishAlternative
    rw [htrim]
  dsimp only at hpast hlen₁ ⊢
  rw [hfinish]
  rcases hpast with h₁ | ⟨hs, hk, hone, hstart⟩
  · have hweighted : s.Parallel (c₁.rest.length + 1)
        (Parser.accept .doubleColon >>= fun weighted =>
          if weighted then Parser.weight >>= Parser.finishAlternative elements
          else pure 1 >>= Parser.finishAlternative elements)
        (Parser.accept .doubleColon >>= fun weighted =>
          if weighted then Parser.weight >>= Parser.finishAlternative elements
          else pure 1 >>= Parser.finishAlternative elements) c₁ d₁ := by
      apply parallel_bind (parallel_accept .doubleColon nofun nofun h₁)
      intro weighted c₂ d₂ h₂ hlen₂
      split
      · apply parallel_bind (parallel_weight h₂)
        intro w c₃ d₃ h₃ hlen₃
        exact parallel_mono (parallel_finishAlternative elements w h₃) (by omega)
      · exact parallel_mono (parallel_finishAlternative elements 1 h₂) (by omega)
    exact outcomes_mono hweighted fun x y hxy => ⟨hxy.1, .inl hxy.2.1, by omega⟩
  · have hpast : s.Past c₁ d₁ := .inr ⟨hs, hk, hone, hstart⟩
    have hc : c₁.kind ≠ .doubleColon := by rw [hk]; nofun
    have hd : d₁.kind ≠ .doubleColon :=
      fun hkind => hc ((hpast.kind_iff .doubleColon nofun nofun nofun).mp hkind)
    rw [accept_other _ _ c₁ hc, accept_other _ _ d₁ hd]
    have hplain : s.Outcomes (fun x y => x.1 = y.1 ∧ s.Past x.2 y.2 ∧
        x.2.rest.length ≤ c.rest.length) (Parser.finishAlternative elements 1 c₁)
        (Parser.finishAlternative elements 1 d₁) := by
      unfold Parser.finishAlternative
      split
      · exact .error fun hstrict => absurd hstrict hs
      · exact .ok ⟨rfl, hpast, hlen₁⟩
    exact hplain

/-! ### Rules -/

theorem outcomes_rule (hi : s.Inners n inner other) (h : s.Beside c d)
    (hn : c.rest.length ≤ n + 1) :
    s.Outcomes (fun x y => x.1 = y.1 ∧ s.Past x.2 y.2 ∧ x.2.rest.length < c.rest.length)
      (Parser.rule inner c) (Parser.rule other d) := by
  apply outcomes_bind (outcomes_expect .dollar _ nofun nofun h)
  rintro ⟨_, c₁⟩ ⟨_, d₁⟩ ⟨_, hdollar, hlen₁⟩
  apply outcomes_bind (outcomes_expect .identifier _ nofun nofun hdollar.beside)
  rintro ⟨t, c₂⟩ ⟨u, d₂⟩ ⟨_, hname, hlen₂⟩
  apply outcomes_bind (outcomes_expect .define _ nofun nofun hname.beside)
  rintro ⟨_, c₃⟩ ⟨_, d₃⟩ ⟨_, hdefine, hlen₃⟩
  dsimp only at hlen₁ hlen₂ hlen₃
  apply outcomes_bind (outcomes_alternative hi hdefine.beside (by dsimp only; omega))
  rintro ⟨first, c₄⟩ ⟨first', d₄⟩ ⟨hfirst, hpast, hlen₄⟩
  dsimp only at hfirst hpast hlen₄ ⊢
  have hitem : ∀ c d, s.Past c d → c.rest.length ≤ n + 1 → decide (c.kind = .pipe) = true →
      s.Outcomes (fun x y => x.1 = y.1 ∧ s.Past x.2 y.2 ∧ x.2.rest.length < c.rest.length)
        ((Parser.advance >>= fun _ => Parser.alternative inner) c)
        ((Parser.advance >>= fun _ => Parser.alternative other) d) := by
    intro c d hpast hlen hpipe
    have hk : c.kind = .pipe := of_decide_eq_true hpipe
    rcases hpast with h | ⟨_, hend, _, _⟩
    · obtain ⟨_, htaken, hlen'⟩ := h.taken (by rw [hk]; nofun)
      have hnext := outcomes_alternative hi htaken.beside (by omega)
      exact outcomes_mono hnext fun x y hxy => ⟨hxy.1, hxy.2.1, by omega⟩
    · exact absurd (hk.symm.trans hend) nofun
  have hgo : ∀ c d, s.Past c d → decide (d.kind = .pipe) = decide (c.kind = .pipe) :=
    fun c d hpast => decide_eq_decide.mpr (hpast.kind_iff .pipe nofun nofun nofun)
  have hall := outcomes_repeatFrom s.Past _ _ _ (fun c d h => h.pos) hgo hitem c₄.rest d₄.rest c₄ d₄
    hpast (by omega) (Nat.le_refl _) hpast.length_le
  apply outcomes_bind hall
  rintro ⟨others, c₅⟩ ⟨others', d₅⟩ ⟨hothers, hpast, hlen₅⟩
  dsimp only at hothers hpast hlen₅ ⊢
  rw [hname.twins.value, hfirst, hothers]
  exact .ok ⟨rfl, hpast, by dsimp only; omega⟩

theorem skipBreaks_cons (index : Nat) (t : Token) (ts : List Token) :
    Cursor.skipBreaks ⟨index, t :: ts⟩ =
      if t.kind = .newline then Cursor.skipBreaks ⟨index + 1, ts⟩ else ⟨index, t :: ts⟩ := by
  unfold Cursor.skipBreaks
  dsimp only
  rw [List.takeWhile_cons]
  by_cases hk : t.kind = .newline
  · rw [if_pos hk, if_pos (decide_eq_true hk), List.length_cons, List.drop_succ_cons,
      Nat.add_right_comm, Nat.add_assoc]
  · rw [if_neg hk, if_neg (by rw [decide_eq_false hk]; nofun)]
    rfl

theorem skipBreaks_start (index : Nat) :
    Cursor.skipBreaks ⟨index, s.start⟩ = ⟨index, s.start⟩ := by
  have hkind := s.start_kind
  generalize s.start = ts at hkind
  cases ts with
  | nil => rfl
  | cons t ts =>
    rw [skipBreaks_cons, if_neg]
    have ht : t.kind = .endOfText ∨ t.kind = .dollar := hkind
    rcases ht with ht | ht <;> rw [ht] <;> nofun

theorem skipBreaks_tail (breaks : List Token) (hbreaks : ∀ t ∈ breaks, t.kind = .newline)
    (index : Nat) :
    Cursor.skipBreaks ⟨index, breaks ++ s.start⟩ = ⟨index + breaks.length, s.start⟩ := by
  induction breaks generalizing index with
  | nil => exact skipBreaks_start index
  | cons t breaks ih =>
    obtain ⟨ht, hrest⟩ := List.forall_mem_cons.mp hbreaks
    rw [List.cons_append, skipBreaks_cons, if_pos ht, ih hrest, List.length_cons,
      Nat.add_right_comm, Nat.add_assoc]

/-- Behind the line breaks, both cursors stand at tokens, or the first one at the end of its list and
the second one behind the breaks of the seam. -/
theorem beside_skipBreaks (h : s.Beside c d) :
    c.skipBreaks.rest.length ≤ c.rest.length ∧
      (c.skipBreaks.kind ≠ .endOfText ∧ s.Beside c.skipBreaks d.skipBreaks ∨
        c.skipBreaks.kind = .endOfText ∧ ∃ index, d.skipBreaks = ⟨index, s.start⟩) := by
  obtain ⟨index, ts⟩ := c
  obtain ⟨index', us⟩ := d
  obtain ⟨hcounted, hrest⟩ := h
  dsimp only at hcounted hrest ⊢
  -- only at the end of the first list do the two cursors part
  induction hrest generalizing index index' with
  | @last t us hend htail hlast =>
    have hstop : Cursor.skipBreaks ⟨index, [t]⟩ = ⟨index, [t]⟩ := by
      rw [skipBreaks_cons, if_neg]
      rw [hend]
      nofun
    rw [hstop, htail, tail, skipBreaks_tail s.breaks s.onlyBreaks]
    exact ⟨Nat.le_refl _, .inr ⟨hend, _, rfl⟩⟩
  | @cons t u ts us hkind htwins hjoint hrest ih =>
    rw [skipBreaks_cons, skipBreaks_cons, ← htwins.kind]
    split
    next =>
      obtain ⟨hlen, hcases⟩ := ih (index + 1) (index' + 1) fun hs => congrArg (· + 1) (hcounted hs)
      exact ⟨Nat.le_succ_of_le hlen, hcases⟩
    next =>
      exact ⟨Nat.le_refl _, .inl ⟨hkind, hcounted, .cons hkind htwins hjoint hrest⟩⟩

theorem Past.skipBreaks (h : s.Past c d) :
    c.skipBreaks.rest.length ≤ c.rest.length ∧
      (c.skipBreaks.kind ≠ .endOfText ∧ s.Beside c.skipBreaks d.skipBreaks ∨
        c.skipBreaks.kind = .endOfText ∧ ∃ index, d.skipBreaks = ⟨index, s.start⟩) := by
  rcases h with h | ⟨_, hk, hlen, hstart⟩
  · exact beside_skipBreaks h
  · obtain ⟨index, ts⟩ := c
    obtain ⟨index', us⟩ := d
    cases ts with
    | nil => cases hlen
    | cons t ts =>
      have hstop : Cursor.skipBreaks ⟨index, t :: ts⟩ = ⟨index, t :: ts⟩ := by
        have ht : t.kind = .endOfText := hk
        rw [skipBreaks_cons, if_neg]
        rw [ht]
        nofun
      have hstart' : us = s.start := hstart
      rw [hstop, hstart', skipBreaks_start]
      exact ⟨Nat.le_refl _, .inr ⟨hk, _, rfl⟩⟩

end Seam

/-! ### Grammars -/

namespace Reading

/-- A reading and what is read after it, if it has no fault. -/
def followedBy (r next : Reading) : Reading :=
  match r.fault with
  | some fault => ⟨r.rules, some fault⟩
  | none => ⟨r.rules ++ next.rules, next.fault⟩

theorem followedBy_nothing (r : Reading) : r.followedBy ⟨[], none⟩ = r := by
  obtain ⟨rules, fault⟩ := r
  cases fault with
  | some fault => rfl
  | none =>
    unfold followedBy
    rw [List.append_nil]

theorem rulesFrom_skipped (inner : Parser.Inner) (bound : List Token) (c d : Cursor)
    (h : c.skipBreaks = d.skipBreaks) :
    rulesFrom inner bound c = rulesFrom inner bound d := by
  cases bound with
  | nil => rfl
  | cons t bound => rw [rulesFrom, rulesFrom, h]

theorem rulesFrom_stop (inner : Parser.Inner) (bound : List Token) (c : Cursor)
    (hk : c.skipBreaks.kind = .endOfText) : rulesFrom inner bound c = ⟨[], none⟩ := by
  cases bound with
  | nil => rfl
  | cons t bound =>
    rw [rulesFrom]
    exact if_pos hk

/-- The reading that starts with a rule, or fails at it. -/
def ofRule (r : Except Fault (Rule × Cursor)) (others : Cursor → Reading) : Reading :=
  match r with
  | .error fault => ⟨[], some fault⟩
  | .ok (rule, c) => ⟨rule :: (others c).rules, (others c).fault⟩

theorem rulesFrom_rule (inner : Parser.Inner) (t : Token) (bound : List Token) (c : Cursor)
    (hk : c.skipBreaks.kind ≠ .endOfText) :
    rulesFrom inner (t :: bound) c =
      ofRule (Parser.rule inner c.skipBreaks) (rulesFrom inner bound) := by
  rw [rulesFrom]
  dsimp only
  rw [if_neg hk]
  cases Parser.rule inner c.skipBreaks <;> rfl

end Reading

namespace Seam

variable {s : Seam} {n : Nat} {inner other : Parser.Inner} {c d : Cursor}

/-- Whether a second reading goes on at the seam where a first one ends without a fault. Where the
first one ends with a fault, and the lists are compared strictly, the second one has the same rules
and an answer to the fault. -/
def Continues (s : Seam) (other : Parser.Inner) (first second : Reading) : Prop :=
  ∃ bound index, s.start.length ≤ bound.length ∧
    (first.fault = none →
      second = first.followedBy (Reading.rulesFrom other bound ⟨index, s.start⟩)) ∧
    ∀ fault ∈ first.fault, s.strict → ∃ answer,
      second = ⟨first.rules, some answer⟩ ∧ s.Answers fault answer

theorem Continues.cons {first second : Reading} (h : s.Continues other first second) (rule : Rule) :
    s.Continues other ⟨rule :: first.rules, first.fault⟩ ⟨rule :: second.rules, second.fault⟩ := by
  obtain ⟨bound, index, hlong, hreading, hfaults⟩ := h
  refine ⟨bound, index, hlong, fun hnone => ?_, fun fault hfault hs => ?_⟩
  · rw [hreading hnone]
    unfold Reading.followedBy
    dsimp only
    cases first.fault <;> rfl
  · obtain ⟨answer, hsecond, hanswer⟩ := hfaults fault hfault hs
    rw [hsecond]
    exact ⟨answer, rfl, hanswer⟩

/-- Reading the second list is reading the first one and then what follows the seam. -/
theorem rulesFrom_past (hi : s.Inners n inner other) (bound bound' : List Token) (c d : Cursor)
    (h : s.Past c d) (hn : c.rest.length ≤ n + 1) (hb : c.rest.length ≤ bound.length)
    (hb' : c.rest.length + s.tail.length ≤ bound'.length + 1) :
    s.Continues other (Reading.rulesFrom inner bound c) (Reading.rulesFrom other bound' d) := by
  -- each rule takes a token, so neither bound runs out before its list does
  induction bound generalizing bound' c d with
  | nil =>
    have hpos := h.pos
    rw [List.length_nil] at hb
    omega
  | cons t bound ih =>
    have hlong : s.start.length ≤ bound'.length := by
      have hpos := h.pos
      rw [tail, List.length_append] at hb'
      omega
    obtain ⟨hlen, hcases⟩ := h.skipBreaks
    rcases hcases with ⟨hk, hbeside⟩ | ⟨hk, index, hd⟩
    · cases bound' with
      | nil => exact absurd (List.length_eq_zero_iff.mp (Nat.le_zero.mp hlong)) s.started
      | cons u bound' =>
        rw [List.length_cons] at hb hb'
        rw [Reading.rulesFrom_rule inner t bound c hk,
          Reading.rulesFrom_rule other u bound' d (by rw [hbeside.kind hk]; exact hk)]
        have hrule := outcomes_rule hi hbeside (by omega)
        generalize Parser.rule inner c.skipBreaks = x at hrule ⊢
        generalize Parser.rule other d.skipBreaks = y at hrule ⊢
        cases hrule with
        | @error fault _ hf =>
          refine ⟨u :: bound', 0, hlong, fun h => absurd h (Option.some_ne_none _), ?_⟩
          rintro _ ⟨⟩ hs
          obtain ⟨answer, rfl, hanswer⟩ := hf hs
          exact ⟨answer, rfl, hanswer⟩
        | @ok x y hxy =>
          obtain ⟨rule, c₁⟩ := x
          obtain ⟨rule', d₁⟩ := y
          obtain ⟨rfl, hpast, hlen₁⟩ : rule = rule' ∧ s.Past c₁ d₁ ∧
            c₁.rest.length < c.skipBreaks.rest.length := hxy
          exact (ih bound' c₁ d₁ hpast (by omega) (by omega) (by omega)).cons rule
    · have hskipped : Reading.rulesFrom other bound' d =
          Reading.rulesFrom other bound' ⟨index, s.start⟩ :=
        Reading.rulesFrom_skipped other bound' _ _ (hd.trans (skipBreaks_start index).symm)
      rw [Reading.rulesFrom_stop inner _ c hk, hskipped]
      exact ⟨bound', index, hlong, fun _ => rfl, fun _ h => absurd h (Option.not_mem_none _)⟩

theorem outcomes_anonymous (hs : s.counted) (h : s.Beside c d) :
    s.Outcomes Eq (Parser.Inner.anonymous c.index) (Parser.Inner.anonymous d.index) := by
  rw [h.index hs]
  exact .ok rfl

theorem ofTokens_along (hs : s.counted) (depth : Nat) (ts us : List Token) (h : s.Along ts us)
    (hlevels : s.strict → s.Answers .nesting .nesting ∨ ts.length ≤ depth) :
    s.Continues (Parser.Inner.level depth) (Reading.ofTokens depth ts)
      (Reading.ofTokens depth us) := by
  have hi := inners_levelBy (s := s) _ _ (fun _ _ => outcomes_anonymous hs) depth ts.length hlevels
  have hcursors : s.Beside ⟨0, ts⟩ ⟨0, us⟩ := ⟨fun _ => rfl, h⟩
  exact rulesFrom_past hi ts us ⟨0, ts⟩ ⟨0, us⟩ (.inl hcursors) (Nat.le_succ _) (Nat.le_refl _)
    (Nat.le_of_eq (along_length h).2)

theorem rulesFrom_end (inner : Parser.Inner) (bound : List Token) (index : Nat) (e : Token)
    (he : e.kind = .endOfText) (junk : List Token) :
    Reading.rulesFrom inner bound ⟨index, e :: junk⟩ = ⟨[], none⟩ := by
  have hskip : Cursor.skipBreaks ⟨index, e :: junk⟩ = ⟨index, e :: junk⟩ := by
    rw [skipBreaks_cons, if_neg]
    rw [he]
    nofun
  refine Reading.rulesFrom_stop inner bound _ ?_
  rw [hskip]
  exact he

/-- Where the second list ends at the seam, the two lists read the same, but for their faults. -/
theorem ofTokens_ending (hs : s.counted) (hstrict : s.strict) (depth : Nat) (ts us : List Token)
    (h : s.Along ts us) (hlevels : s.Answers .nesting .nesting ∨ ts.length ≤ depth) (e : Token)
    (he : e.kind = .endOfText) (junk : List Token) (hstart : s.start = e :: junk) :
    (Reading.ofTokens depth us).rules = (Reading.ofTokens depth ts).rules ∧
      Option.Rel s.Answers (Reading.ofTokens depth ts).fault (Reading.ofTokens depth us).fault := by
  obtain ⟨bound, index, _, hreading, hfaults⟩ := ofTokens_along hs depth ts us h fun _ => hlevels
  rw [hstart, rulesFrom_end _ bound index e he junk, Reading.followedBy_nothing] at hreading
  cases hfault : (Reading.ofTokens depth ts).fault with
  | none =>
    rw [hreading hfault, hfault]
    exact ⟨rfl, .none⟩
  | some fault =>
    obtain ⟨answer, hsame, hanswer⟩ := hfaults fault hfault hstrict
    rw [hsame]
    exact ⟨rfl, .some hanswer⟩

end Seam

end ProseGrammar
