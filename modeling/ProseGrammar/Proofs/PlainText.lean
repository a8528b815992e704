import Mathlib.Data.List.DropRight
import ProseGrammar.Generator
import ProseGrammar.Proofs.Evaluation.Ending
import ProseGrammar.Proofs.Evaluation.Scopes
import ProseGrammar.Proofs.Grammar.Precedence
import ProseGrammar.Proofs.Grammar.Total
import ProseGrammar.Proofs.Token.Cuts
import ProseGrammar.Proofs.Token.Sound

/-!
# Plain text

A rule without dollar signs, brackets, bars and weights is running text: each of its tokens is read as
a literal of its value, whatever operators and marks stand side by side, and the rule expands to the
values as prose. Line breaks at both ends of the text are left out.
-/

namespace ProseGrammar

variable {σ : Type}

/-! ### Tokens that are text -/

/-- Whether a token in running text is nothing but text. -/
structure Token.IsPlain (t : Token) : Prop where
  dollar : t.kind ≠ .dollar
  leftBracket : t.kind ≠ .leftBracket
  pipe : t.kind ≠ .pipe
  doubleColon : t.kind ≠ .doubleColon

/-- A token that the scanner makes inside a plain text. -/
structure Token.IsText (t : Token) : Prop extends t.IsPlain where
  inside : t.kind ≠ .endOfText
  sound : t.isSound = true

/-- Parts of text without the line breaks in front of them and behind them. -/
def Text.withoutBreaks (parts : List String) : List String :=
  (parts.rdropWhile (· == "\n")).dropWhile (· == "\n")

theorem Text.withoutBreaks_ne_nil (parts : List String) (h : ∃ part ∈ parts, part ≠ "\n") :
    withoutBreaks parts ≠ [] := by
  obtain ⟨part, hmem, hpart⟩ := h
  intro hnil
  have hfront := List.dropWhile_eq_nil_iff.mp hnil
  rcases eq_or_ne (parts.rdropWhile (· == "\n")) [] with hempty | hne
  · have hall := List.rdropWhile_eq_nil_iff.mp hempty part hmem
    exact hpart (beq_iff_eq.mp hall)
  · have hlast := List.rdropWhile_last_not (· == "\n") parts hne
    exact hlast (hfront _ (List.getLast_mem hne))

/-! ### Reading -/

/-- The literal that a text is read as. -/
def Node.ofText (s : String) : Node :=
  .literal (.text s)

theorem trimBreaks_texts (parts : List String) :
    Parser.trimBreaks (parts.map Node.ofText) = (Text.withoutBreaks parts).map Node.ofText := by
  have hbreak : Node.isLineBreak ∘ Node.ofText = fun s => s == "\n" := rfl
  rw [Parser.trimBreaks, Text.withoutBreaks, List.rdropWhile, ← List.map_reverse, List.dropWhile_map,
    ← List.map_reverse, List.dropWhile_map, hbreak]

theorem Token.value_of_newline (t : Token) (hsound : t.isSound = true) (hk : t.kind = .newline) :
    t.value = "\n" := by
  rw [isSound, hk] at hsound
  exact String.toList_inj.mp (beq_iff_eq.mp hsound)

section

variable (inner : Parser.Inner)

/-- A token of plain text is an element of its own, whatever follows it. -/
theorem takes_element_text (t : Token) (rest : List Token) (ht : t.IsText) :
    Takes (Parser.element inner) [t] rest (.ofText t.value) := by
  unfold Parser.element
  refine takes_advance ht.inside ?_
  cases hk : t.kind with
  | dollar => exact absurd hk ht.dollar
  | leftBracket => exact absurd hk ht.leftBracket
  | newline =>
    rw [t.value_of_newline ht.sound hk]
    exact takes_pure _ rest
  | _ => exact takes_pure _ rest

/-- No run of tokens of plain text is read as anything but its tokens, one by one. -/
theorem takesAll_texts (body : List Token) (e : Token) (hbody : ∀ t ∈ body, t.IsText)
    (he : e.kind = .endOfText) :
    TakesAll Parser.atElement (Parser.element inner) [e] body
      ((body.map Token.value).map Node.ofText) := by
  induction body with
  | nil =>
    refine .nil fun index => ?_
    have hkind : Cursor.kind ⟨index, [e]⟩ = .endOfText := he
    simp [Parser.atElement, hkind]
  | cons t body ih =>
    obtain ⟨ht, hbody⟩ := List.forall_mem_cons.mp hbody
    have hgoes : ∀ index, Parser.atElement ⟨index, [t] ++ body ++ [e]⟩ = true := by
      intro index
      have hkind : Cursor.kindAt ⟨index, t :: (body ++ [e])⟩ 0 = t.kind := rfl
      simp [Parser.atElement, Cursor.kind, Cursor.atRuleStart, hkind, ht.inside, ht.pipe,
        ht.doubleColon, ht.dollar]
    show TakesAll _ _ _ ([t] ++ body) _
    exact .cons hgoes (takes_element_text inner t _ ht) (ih hbody)

/-- Plain text up to the end is one alternative, of its texts without the outer line breaks. -/
theorem takes_alternative_texts (body : List Token) (e : Token) (hbody : ∀ t ∈ body, t.IsText)
    (he : e.kind = .endOfText) (hword : ∃ part ∈ body.map Token.value, part ≠ "\n") :
    Takes (Parser.alternative inner) body [e]
      ⟨(Text.withoutBreaks (body.map Token.value)).map Node.ofText, .float 1⟩ := by
  have hne : (Text.withoutBreaks (body.map Token.value)).map Node.ofText ≠ [] := by
    rw [Ne, List.map_eq_nil_iff]
    exact Text.withoutBreaks_ne_nil _ hword
  have hend : Token.nextKind ([] ++ [e]) ≠ .doubleColon := by
    rw [show Token.nextKind ([] ++ [e]) = e.kind from rfl, he]
    decide
  have htakes : Takes (Parser.alternative inner) (body ++ []) [e]
      ⟨(Text.withoutBreaks (body.map Token.value)).map Node.ofText, .float 1⟩ := by
    unfold Parser.alternative
    refine takes_bind (takes_repeatWhile (takesAll_texts inner body e hbody he)) ?_
    refine takes_accept_other hend ?_
    simp only [Bool.false_eq_true, if_false, pure_bind, trimBreaks_texts, List.isEmpty_iff, hne]
    exact takes_pure _ _
  rwa [List.append_nil] at htakes

theorem takes_rule_texts (mark name define : Token) (body : List Token) (e : Token)
    (hmark : mark.kind = .dollar) (hname : name.kind = .identifier) (hdefine : define.kind = .define)
    (hbody : ∀ t ∈ body, t.IsText) (he : e.kind = .endOfText)
    (hword : ∃ part ∈ body.map Token.value, part ≠ "\n") :
    Takes (Parser.rule inner) (mark :: name :: define :: body) [e]
      ⟨name.value,
        [⟨(Text.withoutBreaks (body.map Token.value)).map Node.ofText, .float 1⟩]⟩ := by
  have hothers : TakesAll (fun c => c.kind = .pipe)
      (Parser.advance >>= fun _ => Parser.alternative inner) [e] [] [] := by
    refine .nil fun index => ?_
    rw [show Cursor.kind ⟨index, [e]⟩ = e.kind from rfl, he]
    rfl
  have hfirst := takes_alternative_texts inner body e hbody he hword
  generalize Alternative.mk _ _ = first at hfirst ⊢
  unfold Parser.rule
  rw [← hmark]
  refine takes_expect (by rw [hmark]; decide) ?_
  rw [← hname]
  refine takes_expect (by rw [hname]; decide) ?_
  rw [← hdefine]
  refine takes_expect (by rw [hdefine]; decide) ?_
  rw [← List.append_nil body]
  refine takes_bind hfirst (takes_bind_nil (takes_repeatWhile hothers) ?_)
  exact takes_pure _ _

theorem rulesFrom_of_takes (t : Token) (ts : List Token) (e : Token) (ht : t.kind = .dollar)
    (he : e.kind = .endOfText) (r : Rule) (bound : List Token)
    (hrule : Takes (Parser.rule inner) (t :: ts) [e] r) :
    Reading.rulesFrom inner (t :: bound) ⟨0, t :: ts ++ [e]⟩ = ⟨[r], none⟩ := by
  have hskip : Cursor.skipBreaks ⟨0, t :: ts ++ [e]⟩ = ⟨0, t :: ts ++ [e]⟩ := by
    rw [List.cons_append, Seam.skipBreaks_cons, if_neg]
    rw [ht]
    decide
  have hkind : Cursor.kind ⟨0, t :: ts ++ [e]⟩ ≠ .endOfText := by
    rw [show Cursor.kind ⟨0, t :: ts ++ [e]⟩ = t.kind from rfl, ht]
    decide
  rw [Reading.rulesFrom_rule inner t bound _ (by rwa [hskip]), hskip, hrule 0, Reading.ofRule,
    Seam.rulesFrom_end inner bound _ e he []]

end

/-! ### Scanning -/

/-- A text behind the head of a rule splits as it does alone, at other places. -/
theorem scan_rule (text : String) (tokens : List Token) (h : Token.scan text = .ok tokens) :
    ∃ mark name define behind p,
      Token.scan ("$start :=" ++ text) = .ok (mark :: name :: define :: behind) ∧
        mark.kind = .dollar ∧ name.kind = .identifier ∧ name.value = "start" ∧
        define.kind = .define ∧ Token.scanFrom p text.toList = .ok behind ∧
        Token.Aligned tokens behind := by
  let p : Position := ⟨1, 1⟩
  let q := ((p.after ['$']).after "start".toList).step ' '
  obtain ⟨behind, hbehind, haligned⟩ := scanFrom_elsewhere p (q.after [':', '=']) text.toList tokens h
  have hdefine := Piece.scanFrom_spells .define _ _ text.toList (Piece.spells_closed .define rfl _) q
    behind hbehind
  have hspace := (Piece.scanFrom_space _ _).trans hdefine
  have hname := Piece.scanFrom_spells .identifier "start".toList _ _
    (Piece.spells_name _ rfl _ (by rintro _ ⟨⟩; rfl)) (p.after ['$']) _ hspace
  have hmark := Piece.scanFrom_spells .dollar _ _ _ (Piece.spells_closed .dollar rfl _) p _ hname
  have hchars : ("$start :=" ++ text).toList =
      ['$'] ++ ("start".toList ++ ' ' :: ([':', '='] ++ text.toList)) := String.toList_append
  rw [Token.scan, hchars]
  exact ⟨_, _, _, behind, _, hmark, rfl, rfl, rfl, rfl, hbehind, haligned⟩

/-! ### Expansion -/

theorem Outcome.close_self (c : Context σ) (v : Value) : Outcome.close c ⟨v, c⟩ = ⟨v, c⟩ := by
  rw [close, Table.merge_of_grows _ _ (Table.grows_refl _)]

theorem evaluateElements_texts [DrawSource σ] (x : Expander σ) (parts : List String)
    (output : String) (c : Context σ) :
    evaluateElements x (parts.map Node.ofText) output c =
      .ok ⟨.text (parts.foldl Text.joinProse output), c⟩ := by
  induction parts generalizing output with
  | nil => simp [evaluateElements]
  | cons part parts ih =>
    rw [List.map_cons, evaluateElements, Node.ofText, Node.evaluate]
    show evaluateElements x _ _ (Outcome.close c ⟨.text part, c⟩).context = _
    rw [Outcome.close_self]
    exact ih (Text.joinProse output part)

/-- A grammar whose rule `start` has one alternative of texts yields these texts as prose. -/
theorem run_texts [DrawSource σ] (parts : List String) (weight : Value) (l : DepthLimit)
    (hl : 0 < l.levels) (c : Context σ) :
    (Grammar.ofRules [⟨"start", [⟨parts.map Node.ofText, weight⟩]⟩]).run l c =
      .ok ⟨.text (Text.prose parts), c⟩ := by
  obtain ⟨levels, hlevels⟩ : ∃ levels, l.levels = levels + 1 := ⟨l.levels - 1, by omega⟩
  have hrule : Grammar.rule? (Grammar.ofRules [⟨"start", [⟨parts.map Node.ofText, weight⟩]⟩])
      "start" = some ⟨"start", [⟨parts.map Node.ofText, weight⟩]⟩ := rfl
  rw [Grammar.run, hrule]
  dsimp only
  rw [hlevels, Rule.expand_succ rfl]
  show evaluateElements _ (parts.map Node.ofText) "" c >>= _ = _
  rw [evaluateElements_texts]
  exact congrArg Except.ok (Outcome.close_self c _)

/-! ### From source to output -/

theorem Token.Aligned.map_eq {ts us : List Token} (h : Token.Aligned ts us) :
    ts.map (fun t => (t.kind, t.value)) = us.map fun t => (t.kind, t.value) := by
  induction h with
  | nil => rfl
  | cons hkind hvalue _ _ ih => rw [List.map_cons, List.map_cons, hkind, hvalue, ih]

/-- The tokens inside a text are those of the same text elsewhere; they are plain if those are. -/
theorem texts_of_aligned {tokens body : List Token} {e : Token}
    (h : Token.Aligned tokens (body ++ [e])) (hplain : ∀ t ∈ tokens, t.IsPlain)
    (hinside : ∀ t ∈ body, t.kind ≠ .endOfText) (hsound : ∀ t ∈ body, t.isSound = true) :
    (∀ t ∈ body, t.IsText) ∧ tokens.dropLast.map Token.value = body.map Token.value := by
  have hsame := h.map_eq
  constructor
  · intro t ht
    have hmem : (t.kind, t.value) ∈ tokens.map fun t => (t.kind, t.value) := by
      rw [hsame]
      exact List.mem_map_of_mem (List.mem_append_left _ ht)
    obtain ⟨u, hu, hut⟩ := List.mem_map.mp hmem
    have hkind : u.kind = t.kind := congrArg Prod.fst hut
    obtain ⟨hdollar, hbracket, hpipe, hcolon⟩ := hplain u hu
    rw [hkind] at hdollar hbracket hpipe hcolon
    exact ⟨⟨hdollar, hbracket, hpipe, hcolon⟩, hinside t ht, hsound t ht⟩
  · have hpairs : tokens.dropLast.map (fun t => (t.kind, t.value)) =
        body.map fun t => (t.kind, t.value) := by
      rw [List.map_dropLast, hsame, ← List.map_dropLast, List.dropLast_concat]
    have hvalue : Token.value = Prod.snd ∘ fun t : Token => (t.kind, t.value) := rfl
    rw [hvalue, ← List.map_map, hpairs, List.map_map]

/-- A rule `start` of plain text has the values of the tokens as its only alternative. -/
theorem grammar_plainText (text : String) (tokens : List Token)
    (hscan : Token.scan text = .ok tokens) (hplain : ∀ t ∈ tokens, t.IsPlain)
    (hword : ∃ t ∈ tokens.dropLast, t.value ≠ "\n") :
    (Reading.ofSource ("$start :=" ++ text)).grammar = .ok (Grammar.ofRules
      [⟨"start", [⟨(Text.withoutBreaks (tokens.dropLast.map Token.value)).map Node.ofText,
        .float 1⟩]⟩]) := by
  obtain ⟨mark, name, define, behind, p, hsource, hmark, hname, hstart, hdefine, hbehind, haligned⟩ :=
    scan_rule text tokens hscan
  obtain ⟨body, e, rfl, he, hbody, -⟩ := scanFrom_joined p text.toList [] behind hbehind
  have hsound : ∀ t ∈ body, t.isSound = true := fun t ht =>
    isSound_of_scanFrom p _ _ hbehind t (List.mem_append_left _ ht)
  obtain ⟨htexts, hvalues⟩ := texts_of_aligned haligned hplain hbody hsound
  have hparts : ∃ part ∈ body.map Token.value, part ≠ "\n" := by
    obtain ⟨t, ht, hvalue⟩ := hword
    exact ⟨t.value, hvalues ▸ List.mem_map_of_mem ht, hvalue⟩
  have hrule := takes_rule_texts (Parser.Inner.level Reading.nestingLimit) mark name define body e
    hmark hname hdefine htexts he hparts
  have hreading := rulesFrom_of_takes _ mark _ e hmark he _ (name :: define :: (body ++ [e])) hrule
  rw [hstart] at hreading
  rw [Reading.ofSource, hsource, hvalues]
  exact congrArg Reading.grammar hreading

theorem levels_of_make (maxDepth : Int) (defaultSeed : Value) (settings : Settings)
    (h : Settings.make maxDepth defaultSeed = .ok settings) : 0 < settings.depthLimit.levels := by
  unfold Settings.make at h
  split at h
  next => cases h
  next hpositive =>
    cases h
    simp only [DepthLimit.levels]
    omega

/-- Plain text goes through unchanged. A rule of it compiles, under every limit that settings can
have, and yields, from all knowledge and with all draws, the values of the tokens as prose, without
the line breaks in front of them and behind them. The knowledge stays as it is. -/
theorem execute_plainText [DrawSource σ] (text : String) (tokens : List Token)
    (hscan : Token.scan text = .ok tokens) (hplain : ∀ t ∈ tokens, t.IsPlain)
    (hword : ∃ t ∈ tokens.dropLast, t.value ≠ "\n") (maxDepth : Int) (defaultSeed : Value)
    (settings : Settings) (hsettings : Settings.make maxDepth defaultSeed = .ok settings) :
    ∃ g, Generator.compile (Reading.ofSource ("$start :=" ++ text)) settings = .ok g ∧
      ∀ (k : Knowledge) (seed : Value) (shown : String) (draws : σ), seed.inspect = .ok shown →
        g.executeWith (.object k) seed draws =
          .ok ⟨.text ((Text.withoutBreaks (tokens.dropLast.map Token.value)).foldl Text.joinProse ""),
            .object k⟩ := by
  have hgrammar := grammar_plainText text tokens hscan hplain hword
  refine ⟨⟨_, settings⟩, by rw [Generator.compile, hgrammar]; rfl, fun k seed shown draws hseed => ?_⟩
  have hlevels := levels_of_make maxDepth defaultSeed settings hsettings
  rw [executeWith_object, run_texts _ _ _ hlevels, hseed]
  rfl

/-- The tokens of two lines of operators, a numeral, a string and marks. -/
def Token.operatorsAndMarks : List Token :=
  [⟨.newline, "\n", ⟨1, 1⟩⟩, ⟨.plusAssign, "+=", ⟨2, 1⟩⟩, ⟨.minus, "-", ⟨2, 4⟩⟩,
    ⟨.number, "3.50", ⟨2, 5⟩⟩, ⟨.string, "a\tb", ⟨2, 10⟩⟩, ⟨.rightParen, ")", ⟨2, 17⟩⟩,
    ⟨.question, "?", ⟨2, 18⟩⟩, ⟨.newline, "\n", ⟨2, 19⟩⟩, ⟨.endOfText, "", ⟨3, 1⟩⟩]

theorem execute_operatorsAndMarks :
    ∃ g, Generator.compile (Reading.ofSource ("$start :=" ++ "\n+= -3.50 'a\\tb' )?\n"))
        Settings.standard = .ok g ∧
      ∀ (k : Knowledge) (draws : SeededRandom),
        g.executeWith (.object k) .null draws = .ok ⟨.text "+= - 3.50 a\tb )?", .object k⟩ := by
  have hscan : (Token.scan "\n+= -3.50 'a\\tb' )?\n").toOption = some Token.operatorsAndMarks := by
    decide +kernel
  have hplain : ∀ t ∈ Token.operatorsAndMarks, t.IsPlain := by
    have hkinds : ∀ t ∈ Token.operatorsAndMarks,
        t.kind ≠ .dollar ∧ t.kind ≠ .leftBracket ∧ t.kind ≠ .pipe ∧ t.kind ≠ .doubleColon := by
      decide
    intro t ht
    obtain ⟨hdollar, hbracket, hpipe, hcolon⟩ := hkinds t ht
    exact ⟨hdollar, hbracket, hpipe, hcolon⟩
  cases htokens : Token.scan "\n+= -3.50 'a\\tb' )?\n" with
  | error fault =>
    rw [htokens] at hscan
    cases hscan
  | ok tokens =>
    rw [htokens] at hscan
    obtain rfl : tokens = Token.operatorsAndMarks := Option.some.inj hscan
    obtain ⟨g, hg, hrun⟩ := execute_plainText (σ := SeededRandom) _ _ htokens hplain
      ⟨⟨.minus, "-", ⟨2, 4⟩⟩, by decide, by decide⟩ 64 .null Settings.standard rfl
    refine ⟨g, hg, fun k draws => ?_⟩
    rw [hrun k .null _ draws rfl]
    have hprose : (Text.withoutBreaks (Token.operatorsAndMarks.dropLast.map Token.value)).foldl
        Text.joinProse "" = "+= - 3.50 a\tb )?" := by
      decide +kernel
    rw [hprose]

end ProseGrammar
