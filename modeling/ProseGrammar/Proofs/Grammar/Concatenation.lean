import ProseGrammar.Proofs.Grammar.Total
import ProseGrammar.Proofs.Growth
import ProseGrammar.Proofs.Token.Joined

/-!
# Grammars of joined texts

Two texts with a line break between them read as their rules one after the other. The rules of the
first text end before the first rule of the second one: its last alternative ends there with the
line breaks, which are trimmed. The rules of the second text are read as if they stood alone, if
nothing in them is named after its place.
-/

namespace ProseGrammar

theorem Token.touches_lower (lines : Nat) (t u : Token) :
    (t.lower lines).touches (u.lower lines) = t.touches u := by
  have hline : decide (t.position.line + lines = u.position.line + lines) =
      decide (t.position.line = u.position.line) := decide_eq_decide.mpr Nat.add_right_cancel_iff
  exact congrArg (· && decide (u.position.column = t.position.column + t.value.length)) hline

/-- Refuses every value that is assigned to something else than a variable. -/
def Parser.Inner.refused (_ : Nat) : Except Fault Reference :=
  .error .nesting

namespace Reading

/-- Reads a list of tokens with a way to name the targets of values that are assigned to something
else than a variable. -/
def ofTokensBy (names : Nat → Except Fault Reference) (depth : Nat) (tokens : List Token) : Reading :=
  rulesFrom (Parser.Inner.levelBy names depth) tokens ⟨0, tokens⟩

/-- Whether values are assigned to variables only: nothing else is read where such a target is
refused. -/
def assignsToVariables (source : String) : Bool :=
  match Token.scan source with
  | .ok tokens => (ofTokensBy Parser.Inner.refused nestingLimit tokens).fault.isNone
  | .error _ => false

end Reading

/-! ### Line breaks in front of a rule -/

namespace Cursor

theorem skipBreaks_idem (c : Cursor) : c.skipBreaks.skipBreaks = c.skipBreaks := by
  obtain ⟨index, ts⟩ := c
  induction ts generalizing index with
  | nil => rfl
  | cons t ts ih =>
    rw [Seam.skipBreaks_cons]
    split
    next => exact ih (index + 1)
    next hk => rw [Seam.skipBreaks_cons, if_neg hk]

theorem skipBreaks_map (f : Token → Token) (hf : ∀ t, (f t).kind = t.kind) (index : Nat)
    (ts : List Token) :
    skipBreaks ⟨index, ts.map f⟩ =
      ⟨(skipBreaks ⟨index, ts⟩).index, (skipBreaks ⟨index, ts⟩).rest.map f⟩ := by
  induction ts generalizing index with
  | nil => rfl
  | cons t ts ih =>
    rw [List.map_cons, Seam.skipBreaks_cons, Seam.skipBreaks_cons, hf]
    split
    next => exact ih (index + 1)
    next => rfl

theorem kindAt_map (f : Token → Token) (hf : ∀ t, (f t).kind = t.kind) (index index' : Nat)
    (ts : List Token) (i : Nat) : kindAt ⟨index, ts.map f⟩ i = kindAt ⟨index', ts⟩ i := by
  unfold kindAt
  dsimp only
  rw [List.getElem?_map]
  cases ts[i]? with
  | none => rfl
  | some t => exact hf t

theorem breaks_append (index : Nat) (ts : List Token) :
    ts.takeWhile (fun t => t.kind = .newline) ++ (skipBreaks ⟨index, ts⟩).rest = ts :=
  (List.prefix_iff_eq_append.mp (List.takeWhile_prefix _))

end Cursor

theorem expect_ok_iff (kind : TokenKind) (cause : SyntaxCause) (c c' : Cursor) (t : Token) :
    Parser.expect kind cause c = .ok (t, c') ↔ c.kind = kind ∧ t = c.current ∧ c' = c.next := by
  have hexpect : Parser.expect kind cause c =
      (if c.kind = kind then Parser.advance else Parser.fail cause) c := rfl
  rw [hexpect]
  constructor
  · intro h
    split at h
    next hk =>
      cases h
      exact ⟨hk, rfl, rfl⟩
    next => cases h
  · rintro ⟨hk, rfl, rfl⟩
    rw [if_pos hk]
    rfl

theorem atRuleStart_of_rule (inner : Parser.Inner) (c d : Cursor) (rule : Rule)
    (h : Parser.rule inner c = .ok (rule, d)) : c.atRuleStart = true := by
  obtain ⟨⟨_, c₁⟩, hdollar, h⟩ := (bind_ok_iff _ _ _).mp h
  obtain ⟨⟨_, c₂⟩, hname, h⟩ := (bind_ok_iff _ _ _).mp h
  obtain ⟨⟨_, c₃⟩, hdefine, _⟩ := (bind_ok_iff _ _ _).mp h
  obtain ⟨hk, -, rfl⟩ := (expect_ok_iff _ _ _ _ _).mp hdollar
  obtain ⟨hk₁, -, rfl⟩ := (expect_ok_iff _ _ _ _ _).mp hname
  obtain ⟨hk₂, -, rfl⟩ := (expect_ok_iff _ _ _ _ _).mp hdefine
  have hne : c.kind ≠ .endOfText := by rw [hk]; nofun
  have hne₁ : c.next.kind ≠ .endOfText := by rw [hk₁]; nofun
  have hk₁' : c.kindAt 1 = .identifier := (Seam.kindAt_succ c hne 0).trans hk₁
  have hk₂' : c.kindAt 2 = .define :=
    (Seam.kindAt_succ c hne 1).trans ((Seam.kindAt_succ c.next hne₁ 0).trans hk₂)
  have hk' : c.kindAt 0 = .dollar := hk
  unfold Cursor.atRuleStart
  rw [hk', hk₁', hk₂']
  rfl

/-- Tokens that are read to rules start with a rule, behind line breaks. -/
theorem atRuleStart_of_reading (inner : Parser.Inner) (bound : List Token) (c : Cursor)
    (hrules : (Reading.rulesFrom inner bound c).rules ≠ []) : c.skipBreaks.atRuleStart = true := by
  cases bound with
  | nil => exact absurd rfl hrules
  | cons t bound =>
    by_cases hk : c.skipBreaks.kind = .endOfText
    · rw [Reading.rulesFrom_stop inner _ c hk] at hrules
      exact absurd rfl hrules
    · rw [Reading.rulesFrom_rule inner t bound c hk] at hrules
      cases hrule : Parser.rule inner c.skipBreaks with
      | error fault =>
        rw [hrule] at hrules
        exact absurd rfl hrules
      | ok read => exact atRuleStart_of_rule inner _ read.2 read.1 hrule

theorem kind_of_atRuleStart (c : Cursor) (h : c.atRuleStart = true) : c.kind = .dollar := by
  simp only [Cursor.atRuleStart, Bool.and_eq_true, decide_eq_true_eq] at h
  exact h.1.1

/-! ### The second text -/

/-- The tokens of a text beside the same tokens elsewhere in another one. -/
def Seam.lowered (e : Token) (he : e.kind = .endOfText) : Seam :=
  .ending e [] he False False (fun _ _ => True) (fun _ _ => True) (fun _ _ => trivial)
    fun _ _ _ => trivial

/-- If nothing is named after its place, rules read the same in other lines and behind any number of
tokens. -/
theorem rulesFrom_lowered (names : Nat → Except Fault Reference) (depth lines index : Nat)
    (tokens bound : List Token) (h : Token.EndsOnce tokens)
    (hk : (Cursor.skipBreaks ⟨0, tokens⟩).kind ≠ .endOfText)
    (hnone : (Reading.ofTokensBy Parser.Inner.refused depth tokens).fault = none)
    (hb : (Cursor.skipBreaks ⟨0, tokens⟩).rest.length ≤ bound.length) :
    Reading.rulesFrom (Parser.Inner.levelBy names depth) bound
        ⟨index, (Cursor.skipBreaks ⟨0, tokens⟩).rest.map (Token.lower lines)⟩ =
      Reading.ofTokensBy Parser.Inner.refused depth tokens := by
  obtain ⟨body, e, rfl, he, hbody⟩ := h
  -- the list and its lowered image are two lists with a seam at the end
  let s := Seam.lowered (e.lower lines) he
  have halong : s.Along (body ++ [e]) ((body ++ [e]).map (Token.lower lines)) := by
    rw [List.map_append]
    exact s.along_map (Token.lower lines) body e (fun t ht => ⟨hbody t ht, rfl, rfl, False.elim⟩)
      (fun t u => (Token.touches_lower lines t u).symm) he False.elim
  have hi := Seam.inners_levelBy (s := s) Parser.Inner.refused names
    (fun _ _ _ => .error False.elim) depth (body ++ [e]).length False.elim
  have hskip : s.Beside ⟨0, body ++ [e]⟩ ⟨0, (body ++ [e]).map (Token.lower lines)⟩ :=
    ⟨fun _ => rfl, halong⟩
  obtain ⟨hlen, ⟨_, hbeside⟩ | ⟨hend, _⟩⟩ := Seam.beside_skipBreaks hskip
  · have hmoved : s.Beside (Cursor.skipBreaks ⟨0, body ++ [e]⟩)
        ⟨index, (Cursor.skipBreaks ⟨0, body ++ [e]⟩).rest.map (Token.lower lines)⟩ := by
      have hrest := hbeside.rest
      rw [Cursor.skipBreaks_map (Token.lower lines) (fun _ => rfl)] at hrest
      exact ⟨False.elim, hrest⟩
    obtain ⟨bound', index', _, hreading, _⟩ := Seam.rulesFrom_past hi (body ++ [e]) bound _ _
      (.inl hmoved) (Nat.le_succ_of_le hlen) hlen (Nat.succ_le_succ hb)
    have hsame : Reading.rulesFrom (Parser.Inner.levelBy Parser.Inner.refused depth) (body ++ [e])
        (Cursor.skipBreaks ⟨0, body ++ [e]⟩) =
          Reading.ofTokensBy Parser.Inner.refused depth (body ++ [e]) :=
      Reading.rulesFrom_skipped _ _ _ _ (Cursor.skipBreaks_idem _)
    have hstop :=
      Seam.rulesFrom_end (Parser.Inner.levelBy names depth) bound' index' (e.lower lines) he []
    have hstart : s.start = [e.lower lines] := rfl
    rw [hsame, hstart, hstop, Reading.followedBy_nothing] at hreading
    exact hreading hnone
  · exact absurd hend hk

theorem length_skipBreaks (index : Nat) (ts : List Token) :
    (Cursor.skipBreaks ⟨index, ts⟩).rest.length ≤ ts.length := by
  have happend := congrArg List.length (Cursor.breaks_append index ts)
  rw [List.length_append] at happend
  omega

theorem ofTokensBy_of_refused (names : Nat → Except Fault Reference) (depth : Nat)
    (tokens : List Token) (h : Token.EndsOnce tokens)
    (hk : (Cursor.skipBreaks ⟨0, tokens⟩).kind ≠ .endOfText)
    (hnone : (Reading.ofTokensBy Parser.Inner.refused depth tokens).fault = none) :
    Reading.ofTokensBy names depth tokens =
      Reading.ofTokensBy Parser.Inner.refused depth tokens := by
  have hlower : Token.lower 0 = id := rfl
  have hhere := rulesFrom_lowered names depth 0 (Cursor.skipBreaks ⟨0, tokens⟩).index tokens tokens h
    hk hnone (length_skipBreaks 0 tokens)
  rw [hlower, List.map_id] at hhere
  rw [← hhere]
  exact (Reading.rulesFrom_skipped _ _ _ _ (Cursor.skipBreaks_idem _)).symm

/-! ### The first text -/

/-- The tokens of a text beside those of a joined text. -/
def Seam.joined (breaks start : List Token) (hbreaks : ∀ t ∈ breaks, t.kind = .newline)
    (hne : breaks ≠ []) (hstart : Cursor.atRuleStart ⟨0, start⟩ = true) : Seam where
  breaks := breaks
  start := start
  counted := True
  strict := False
  Alike _ _ := True
  Answers _ _ := True
  onlyBreaks := hbreaks
  started := by
    rintro rfl
    cases hstart
  endsOrStarts := .inr ⟨hne, hstart⟩
  noBreaks := False.elim
  syntactic _ _ := trivial
  number _ _ _ := trivial

/-- A text that is read without a fault is read in the same way in front of a line break and the
start of a rule. -/
theorem rulesFrom_joined (depth : Nat) (body breaks start : List Token) (e : Token)
    (he : e.kind = .endOfText) (hbody : ∀ t ∈ body, t.kind ≠ .endOfText)
    (hbreaks : ∀ t ∈ breaks, t.kind = .newline) (hne : breaks ≠ [])
    (hstart : Cursor.atRuleStart ⟨0, start⟩ = true)
    (hnone : (Reading.ofTokens depth (body ++ [e])).fault = none) :
    ∃ bound index, start.length ≤ bound.length ∧
      Reading.ofTokens depth (body ++ (breaks ++ start)) =
        (Reading.ofTokens depth (body ++ [e])).followedBy
          (Reading.rulesFrom (Parser.Inner.level depth) bound ⟨index, start⟩) := by
  let s := Seam.joined breaks start hbreaks hne hstart
  have halong : s.Along (body ++ [e]) (body ++ (breaks ++ start)) := by
    have hmap := s.along_map id body e (fun t ht => ⟨hbody t ht, rfl, rfl, False.elim⟩)
      (fun _ _ => rfl) he False.elim
    rwa [List.map_id] at hmap
  obtain ⟨bound, index, hbound, hreading, _⟩ := Seam.ofTokens_along (s := s) trivial depth _ _
    halong False.elim
  exact ⟨bound, index, hbound, hreading hnone⟩

/-! ### Joined texts -/

theorem reading_ok (r : Reading) (g : Grammar) (h : r.grammar = .ok g) :
    r.fault = none ∧ r.rules ≠ [] ∧ g = Grammar.ofRules r.rules := by
  obtain ⟨rules, fault⟩ := r
  unfold Reading.grammar at h
  cases fault with
  | some fault => cases h
  | none =>
    dsimp only at h
    split at h
    next => cases h
    next hrules =>
      cases h
      refine ⟨rfl, ?_, rfl⟩
      rintro rfl
      exact hrules rfl

/-- The tokens of two texts, of which the second ones stand lower, with a line break between them. -/
theorem ofTokens_joined (depth lines : Nat) (body tokens : List Token) (e lineBreak : Token)
    (he : e.kind = .endOfText) (hbody : ∀ t ∈ body, t.kind ≠ .endOfText)
    (hbreak : lineBreak.kind = .newline)
    (hnone : (Reading.ofTokens depth (body ++ [e])).fault = none) (hends : Token.EndsOnce tokens)
    (hassigns : (Reading.ofTokensBy Parser.Inner.refused depth tokens).fault = none)
    (hrules : (Reading.ofTokens depth tokens).rules ≠ []) :
    Reading.ofTokens depth (body ++ lineBreak :: tokens.map (Token.lower lines)) =
      (Reading.ofTokens depth (body ++ [e])).followedBy (Reading.ofTokens depth tokens) := by
  have hstarts := atRuleStart_of_reading _ tokens ⟨0, tokens⟩ hrules
  have hk : (Cursor.skipBreaks ⟨0, tokens⟩).kind ≠ .endOfText := by
    rw [kind_of_atRuleStart _ hstarts]
    nofun
  have halone : Reading.ofTokens depth tokens = Reading.ofTokensBy Parser.Inner.refused depth tokens :=
    ofTokensBy_of_refused Parser.Inner.anonymous depth tokens hends hk hassigns
  let breaks := lineBreak :: (tokens.takeWhile fun t => t.kind = .newline).map (Token.lower lines)
  let start := (Cursor.skipBreaks ⟨0, tokens⟩).rest.map (Token.lower lines)
  have hlist : breaks ++ start = lineBreak :: tokens.map (Token.lower lines) := by
    have hmap := congrArg (List.map (Token.lower lines)) (Cursor.breaks_append 0 tokens)
    rw [List.map_append] at hmap
    exact congrArg (lineBreak :: ·) hmap
  have hbreaks : ∀ t ∈ breaks, t.kind = .newline := by
    refine List.forall_mem_cons.mpr ⟨hbreak, fun t ht => ?_⟩
    obtain ⟨u, hu, rfl⟩ := List.mem_map.mp ht
    exact of_decide_eq_true (List.all_eq_true.mp List.all_takeWhile u hu)
  have hstart : Cursor.atRuleStart ⟨0, start⟩ = true := by
    rw [← hstarts]
    unfold Cursor.atRuleStart
    simp only [start, Cursor.kindAt_map (Token.lower lines) (fun _ => rfl) 0
      (Cursor.skipBreaks ⟨0, tokens⟩).index]
  obtain ⟨bound, index, hbound, hjoined⟩ := rulesFrom_joined depth body breaks start e he hbody
    hbreaks (List.cons_ne_nil _ _) hstart hnone
  rw [List.length_map] at hbound
  rw [← hlist, hjoined, halone]
  exact congrArg _ (rulesFrom_lowered Parser.Inner.anonymous depth lines index tokens bound hends hk
    hassigns hbound)

/-- The grammar of two readings has the rules of both, the later ones under each name. -/
theorem grammar_followedBy (r r' : Reading) (hnone : r.fault = none) (hnone' : r'.fault = none)
    (hrules : r.rules ≠ []) :
    ∃ joined, (r.followedBy r').grammar = .ok joined ∧
      joined.rules.keys = (Grammar.ofRules r.rules).rules.keys ++
        (Grammar.ofRules r'.rules).rules.keys.filter
          (fun name => name ∉ (Grammar.ofRules r.rules).rules.keys) ∧
      ∀ name, joined.rule? name =
        ((Grammar.ofRules r'.rules).rule? name).or ((Grammar.ofRules r.rules).rule? name) := by
  obtain ⟨rules, fault⟩ := r
  obtain ⟨rules', fault'⟩ := r'
  obtain rfl : fault = none := hnone
  obtain rfl : fault' = none := hnone'
  refine ⟨Grammar.ofRules (rules ++ rules'), if_neg ?_, ?_, fun name => ?_⟩
  · rw [List.isEmpty_iff]
    exact fun hempty => hrules (List.append_eq_nil_iff.mp hempty).1
  · unfold Grammar.ofRules
    rw [List.map_append]
    exact Table.keys_ofEntries_append _ _
  · unfold Grammar.ofRules Grammar.rule?
    rw [List.map_append]
    exact Table.get?_ofEntries_append _ _ name

/-- Two texts that are grammars are one when they are joined by a line break, if the second one
assigns to variables only: its rules are those of the two texts, each name at the place of its first
definition and with its last one. -/
theorem grammar_of_joined (source other : String) (g g' : Grammar)
    (h : (Reading.ofSource source).grammar = .ok g)
    (h' : (Reading.ofSource other).grammar = .ok g')
    (hassigns : Reading.assignsToVariables other = true) :
    ∃ joined, (Reading.ofSource (source ++ "\n" ++ other)).grammar = .ok joined ∧
      joined.rules.keys =
        g.rules.keys ++ g'.rules.keys.filter (fun name => name ∉ g.rules.keys) ∧
      ∀ name, joined.rule? name = (g'.rule? name).or (g.rule? name) := by
  cases hscan : Token.scan source with
  | error fault =>
    rw [Reading.ofSource, hscan] at h
    cases h
  | ok ts =>
  cases hscan' : Token.scan other with
  | error fault =>
    rw [Reading.ofSource, hscan'] at h'
    cases h'
  | ok us =>
  rw [Reading.ofSource, hscan] at h
  rw [Reading.ofSource, hscan'] at h'
  rw [Reading.assignsToVariables, hscan', Option.isNone_iff_eq_none] at hassigns
  obtain ⟨hnone, hrules, rfl⟩ := reading_ok (Reading.ofTokens Reading.nestingLimit ts) g h
  obtain ⟨hnone', hrules', rfl⟩ := reading_ok (Reading.ofTokens Reading.nestingLimit us) g' h'
  obtain ⟨body, e, rfl, he, hbody, hsplit⟩ :=
    scanFrom_joined ⟨1, 1⟩ source.toList other.toList ts hscan
  obtain ⟨body', e', rfl, he', hbody', _⟩ := scanFrom_joined ⟨1, 1⟩ other.toList [] us hscan'
  have hlower := Token.scanFrom_lower e.position.line ⟨1, 1⟩ other.toList _ hscan'
  have hplace : Position.lower e.position.line ⟨1, 1⟩ = ⟨e.position.line + 1, 1⟩ :=
    congrArg (Position.mk · 1) (Nat.add_comm _ _)
  rw [hplace] at hlower
  rw [hlower] at hsplit
  have htext : (source ++ "\n" ++ other).toList = source.toList ++ '\n' :: other.toList := by
    rw [String.toList_append, String.toList_append, List.append_assoc]
    rfl
  have hboth : Token.scan (source ++ "\n" ++ other) = .ok (body ++ ⟨.newline, "\n", e.position⟩ ::
      (body' ++ [e']).map (Token.lower e.position.line)) := by
    rw [Token.scan, htext]
    exact hsplit
  have hreading := ofTokens_joined Reading.nestingLimit e.position.line body (body' ++ [e']) e
    ⟨.newline, "\n", e.position⟩ he hbody rfl hnone ⟨body', e', rfl, he', hbody'⟩ hassigns hrules'
  rw [Reading.ofSource, hboth]
  dsimp only
  rw [hreading]
  exact grammar_followedBy _ _ hnone hnone' hrules

/-- A greeting that ends in a weight, line breaks and a comment. -/
def Text.greetingWithComment : String :=
  "$start := $greeting you |\nhi ::2\n\n# rules\n$greeting := hello # end"

/-- Another greeting, with a visit behind it. -/
def Text.greetingOfVisitor : String :=
  "\n  $greeting := [$$.visits += 1; \"welcome back\"]\n$visit := again"

theorem grammar_of_keys (r : Except Fault Grammar) (keys : List String)
    (h : r.toOption.map (fun g => g.rules.keys) = some keys) :
    ∃ g, r = .ok g ∧ g.rules.keys = keys := by
  cases r with
  | error fault => cases h
  | ok g => exact ⟨g, rfl, Option.some.inj h⟩

theorem grammar_of_joined_greetings :
    ∃ joined, (Reading.ofSource (Text.greetingWithComment ++ "\n" ++ Text.greetingOfVisitor)).grammar =
        .ok joined ∧ joined.rules.keys = ["start", "greeting", "visit"] := by
  obtain ⟨g, hg, hkeys⟩ := grammar_of_keys (Reading.ofSource Text.greetingWithComment).grammar
    ["start", "greeting"] (by decide +kernel)
  obtain ⟨g', hg', hkeys'⟩ := grammar_of_keys (Reading.ofSource Text.greetingOfVisitor).grammar
    ["greeting", "visit"] (by decide +kernel)
  have hassigns : Reading.assignsToVariables Text.greetingOfVisitor = true := by decide +kernel
  obtain ⟨joined, hjoined, hboth, _⟩ := grammar_of_joined _ _ g g' hg hg' hassigns
  refine ⟨joined, hjoined, ?_⟩
  rw [hboth, hkeys, hkeys']
  decide

end ProseGrammar
