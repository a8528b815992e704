import ProseGrammar.Proofs.Token.Layout

/-!
# Reading across the end of a list of tokens

Two lists of tokens are read side by side. They have the same kinds and values up to the end of the
first one, where the second may go on, after line breaks, with something else. No production looks
at what stands there: what is read of the first list is read of the second one, and every production
takes a token, so the readers of both come to the seam. Where the lists are compared strictly, so
are the faults: to a fault of the first list the second one has an answer.
-/

namespace ProseGrammar

variable {α β : Type}

/-- What stands in a list of tokens where a list that is read beside it is at its end: line breaks,
and then the end of the text or, after at least one break, the start of a rule. -/
structure Seam where
  breaks : List Token
  start : List Token
  /-- Whether the cursors have passed as many tokens in one list as in the other. -/
  counted : Prop
  /-- Whether the second list fails where the first one does. -/
  strict : Prop
  /-- What tokens in the same places have in common, apart from their kinds and values. -/
  Alike : Token → Token → Prop
  /-- Which faults of the second list answer to a fault of the first one. -/
  Answers : Fault → Fault → Prop
  onlyBreaks : ∀ t ∈ breaks, t.kind = .newline
  started : start ≠ []
  endsOrStarts : Cursor.kind ⟨0, start⟩ = .endOfText ∨
    breaks ≠ [] ∧ Cursor.atRuleStart ⟨0, start⟩ = true
  noBreaks : strict → breaks = []
  syntactic : ∀ {t u : Token} (cause : SyntaxCause), Alike t u →
    Answers (.syntactic cause t.position) (.syntactic cause u.position)
  number : ∀ {t u : Token} {fault : Fault}, Alike t u → t.kind = .number →
    t.number? = .error fault → Answers fault fault

theorem Parser.repeatFrom_cons (goesOn : Cursor → Bool) (item : Parser α) (t : Token)
    (bound : List Token) (c : Cursor) :
    Parser.repeatFrom goesOn item (t :: bound) c =
      if goesOn c then do
        let first ← item c
        let others ← Parser.repeatFrom goesOn item bound first.2
        return (first.1 :: others.1, others.2)
      else .ok ([], c) := by
  rw [Parser.repeatFrom]
  split
  · cases item c with
    | error fault => rfl
    | ok first =>
      dsimp only [bind, Except.bind]
      cases Parser.repeatFrom goesOn item bound first.2 <;> rfl
  · rfl

namespace Seam

/-- A seam at the end of the first list. -/
def ending (e : Token) (junk : List Token) (he : e.kind = .endOfText) (counted strict : Prop)
    (Alike : Token → Token → Prop) (Answers : Fault → Fault → Prop)
    (syntactic : ∀ {t u : Token} (cause : SyntaxCause), Alike t u →
      Answers (.syntactic cause t.position) (.syntactic cause u.position))
    (number : ∀ {t u : Token} {fault : Fault}, Alike t u → t.kind = .number →
      t.number? = .error fault → Answers fault fault) : Seam where
  breaks := []
  start := e :: junk
  counted := counted
  strict := strict
  Alike := Alike
  Answers := Answers
  onlyBreaks := nofun
  started := List.cons_ne_nil e junk
  endsOrStarts := .inl he
  noBreaks _ := rfl
  syntactic := syntactic
  number := number

/-! ### Cursors side by side -/

def tail (s : Seam) : List Token :=
  s.breaks ++ s.start

/-- A token of the first list and the one in its place in the second list. -/
structure Twins (s : Seam) (t u : Token) : Prop where
  kind : t.kind = u.kind
  value : t.value = u.value
  alike : s.strict → s.Alike t u

/-- Two lists of tokens go side by side to the end of the first one; neighbouring parts of paths
touch in both or in none. -/
inductive Along (s : Seam) : List Token → List Token → Prop
  | last {t : Token} {us : List Token} (hend : t.kind = .endOfText) (htail : us = s.tail)
      (hlast : s.strict → ∀ u ∈ s.start.head?, s.Twins t u) : Along s [t] us
  | cons {t u : Token} {ts us : List Token} (hkind : t.kind ≠ .endOfText) (htwins : s.Twins t u)
      (hjoint : ∀ t' ∈ ts.head?, ∀ u' ∈ us.head?, t.kind.isPathPart = true →
        t'.kind.isPathPart = true → t.touches t' = u.touches u')
      (h : Along s ts us) : Along s (t :: ts) (u :: us)

/-- Two cursors stand side by side. -/
structure Beside (s : Seam) (c d : Cursor) : Prop where
  index : s.counted → c.index = d.index
  rest : s.Along c.rest d.rest

/-- A token is taken from each of two lists: the two are twins, and so are those that follow. -/
structure Taken (s : Seam) (t u : Token) (c d : Cursor) : Prop where
  twins : s.Twins t u
  along : s.Along (t :: c.rest) (u :: d.rest)
  beside : s.Beside c d

variable {s : Seam} {c d : Cursor}

theorem start_kind (s : Seam) :
    Cursor.kind ⟨0, s.start⟩ = .endOfText ∨ Cursor.kind ⟨0, s.start⟩ = .dollar := by
  rcases s.endsOrStarts with h | ⟨_, h⟩
  · exact .inl h
  · simp only [Cursor.atRuleStart, Bool.and_eq_true, decide_eq_true_eq] at h
    exact .inr h.1.1

theorem tail_kind (s : Seam) (index : Nat) :
    Cursor.kind ⟨index, s.tail⟩ = .endOfText ∨ Cursor.kind ⟨index, s.tail⟩ = .newline := by
  cases hbreaks : s.breaks with
  | nil =>
    have htail : s.tail = s.start := by rw [tail, hbreaks, List.nil_append]
    rcases s.endsOrStarts with h | ⟨h, _⟩
    · rw [htail]
      exact .inl h
    · exact absurd hbreaks h
  | cons t breaks =>
    have ht : t.kind = .newline := s.onlyBreaks t (hbreaks ▸ List.mem_cons_self)
    have htail : s.tail = t :: (breaks ++ s.start) := by rw [tail, hbreaks, List.cons_append]
    rw [htail]
    exact .inr ht

theorem along_length {ts us : List Token} (h : s.Along ts us) :
    0 < ts.length ∧ ts.length + s.tail.length = us.length + 1 := by
  induction h with
  | last _ htail =>
    rw [htail, List.length_singleton]
    exact ⟨Nat.one_pos, Nat.add_comm _ _⟩
  | cons _ _ _ _ ih =>
    rw [List.length_cons, List.length_cons]
    omega

theorem Beside.pos (h : s.Beside c d) : 0 < c.rest.length :=
  (along_length h.rest).1

/-- Where the first cursor stands at a token, the second one does at its twin. -/
theorem Beside.taken (h : s.Beside c d) (hk : c.kind ≠ .endOfText) :
    c.current.kind = c.kind ∧ s.Taken c.current d.current c.next d.next ∧
      c.next.rest.length < c.rest.length := by
  obtain ⟨index, ts⟩ := c
  obtain ⟨index', us⟩ := d
  have hrest := h.rest
  dsimp only at hrest
  cases hrest with
  | last hend => exact absurd hend hk
  | @cons t u ts us hkind htwins hjoint hafter =>
    have hkind' : u.kind ≠ .endOfText := htwins.kind ▸ hkind
    have hnext : Cursor.next ⟨index, t :: ts⟩ = ⟨index + 1, ts⟩ := if_neg hkind
    have hnext' : Cursor.next ⟨index', u :: us⟩ = ⟨index' + 1, us⟩ := if_neg hkind'
    rw [hnext, hnext']
    refine ⟨rfl, ⟨htwins, .cons hkind htwins hjoint hafter, fun hc => ?_, hafter⟩, ?_⟩
    · exact congrArg (· + 1) (h.index hc)
    · exact Nat.lt_succ_self _

theorem Beside.next (h : s.Beside c d) (hk : c.kind ≠ .endOfText) : s.Beside c.next d.next :=
  (h.taken hk).2.1.beside

/-- Where the first cursor stands at the end of its list, the second one stands at the seam. -/
theorem Beside.seam (h : s.Beside c d) (hk : c.kind = .endOfText) :
    c.rest.length = 1 ∧ d.rest = s.tail := by
  obtain ⟨index, ts⟩ := c
  have hrest := h.rest
  dsimp only at hrest
  generalize d.rest = us at hrest ⊢
  cases hrest with
  | last _ htail => exact ⟨rfl, htail⟩
  | cons hkind => exact absurd hk hkind

theorem Beside.kind (h : s.Beside c d) (hk : c.kind ≠ .endOfText) : d.kind = c.kind := by
  obtain ⟨hkind, htaken, _⟩ := h.taken hk
  have hd : d.current.kind = d.kind := by
    obtain ⟨index, us⟩ := d
    cases us <;> rfl
  rw [← hd, ← htaken.twins.kind, hkind]

theorem Beside.kind_end (h : s.Beside c d) (hk : c.kind = .endOfText) :
    d.kind = .endOfText ∨ d.kind = .newline := by
  obtain ⟨index, us⟩ := d
  have hus : us = s.tail := (h.seam hk).2
  rw [hus]
  exact s.tail_kind index

/-- A class of tokens that has both the end of the text and the line break or none of them is the
same at the two cursors. -/
theorem Beside.class_eq (h : s.Beside c d) (p : TokenKind → Bool) (hp : p .endOfText = p .newline) :
    p d.kind = p c.kind := by
  by_cases hk : c.kind = .endOfText
  · rw [hk]
    rcases h.kind_end hk with hd | hd <;> rw [hd]
    exact hp.symm
  · rw [h.kind hk]

theorem Beside.kind_iff (h : s.Beside c d) (kind : TokenKind) (hend : kind ≠ .endOfText)
    (hbreak : kind ≠ .newline) : d.kind = kind ↔ c.kind = kind := by
  have hclass := h.class_eq (fun k => decide (k = kind)) (by simp [hend.symm, hbreak.symm])
  simpa using hclass

theorem kindAt_succ (c : Cursor) (hk : c.kind ≠ .endOfText) (i : Nat) :
    c.kindAt (i + 1) = c.next.kindAt i := by
  obtain ⟨index, ts⟩ := c
  cases ts with
  | nil => exact absurd rfl hk
  | cons t ts =>
    rw [Cursor.next, if_neg hk]
    rfl

theorem Beside.class_ahead (h : s.Beside c d) (hk : c.kind ≠ .endOfText) (p : TokenKind → Bool)
    (hp : p .endOfText = p .newline) : p (d.kindAt 1) = p (c.kindAt 1) := by
  have hkd : d.kind ≠ .endOfText := h.kind hk ▸ hk
  rw [kindAt_succ c hk 0, kindAt_succ d hkd 0]
  exact (h.next hk).class_eq p hp

theorem Beside.atRuleStart (h : s.Beside c d) : d.atRuleStart = c.atRuleStart := by
  have hdollar := h.kind_iff .dollar nofun nofun
  by_cases hk : c.kind = .dollar
  · have hne : c.kind ≠ .endOfText := by rw [hk]; nofun
    have hned : d.kind ≠ .endOfText := by rw [hdollar.mpr hk]; nofun
    have hnext := h.next hne
    have hname := hnext.kind_iff .identifier nofun nofun
    unfold Cursor.atRuleStart
    rw [kindAt_succ c hne 0, kindAt_succ d hned 0, kindAt_succ c hne 1, kindAt_succ d hned 1]
    by_cases hk' : c.next.kind = .identifier
    · have hne' : c.next.kind ≠ .endOfText := by rw [hk']; nofun
      have hned' : d.next.kind ≠ .endOfText := by rw [hname.mpr hk']; nofun
      have hdefine := (hnext.next hne').kind_iff .define nofun nofun
      rw [kindAt_succ _ hne' 0, kindAt_succ _ hned' 0, Bool.eq_iff_iff]
      simp only [Bool.and_eq_true, decide_eq_true_eq]
      exact and_congr (and_congr hdollar hname) hdefine
    · have hkd' : d.next.kind ≠ .identifier := fun hkd => hk' (hname.mp hkd)
      have hc : decide (c.next.kindAt 0 = .identifier) = false := decide_eq_false hk'
      have hd : decide (d.next.kindAt 0 = .identifier) = false := decide_eq_false hkd'
      rw [hc, hd, Bool.and_false, Bool.and_false, Bool.false_and, Bool.false_and]
  · have hkd : d.kind ≠ .dollar := fun hkd => hk (hdollar.mp hkd)
    have hc : decide (c.kindAt 0 = .dollar) = false := decide_eq_false hk
    have hd : decide (d.kindAt 0 = .dollar) = false := decide_eq_false hkd
    unfold Cursor.atRuleStart
    rw [hc, hd, Bool.false_and, Bool.false_and, Bool.false_and, Bool.false_and]

/-- In lists that are compared strictly, cursors side by side stand at twins. -/
theorem Beside.current (h : s.Beside c d) (hs : s.strict) : s.Twins c.current d.current := by
  by_cases hk : c.kind = .endOfText
  · obtain ⟨index, ts⟩ := c
    obtain ⟨index', us⟩ := d
    have hrest := h.rest
    dsimp only at hrest
    cases hrest with
    | @last t us _ htail hlast =>
      obtain ⟨e, start, hstart⟩ := List.exists_cons_of_ne_nil s.started
      rw [tail, s.noBreaks hs, List.nil_append, hstart] at htail
      rw [htail]
      exact hlast hs e (by rw [hstart]; rfl)
    | cons hkind => exact absurd hk hkind
  · exact (h.taken hk).2.1.twins

/-! ### Parsers side by side -/

/-- If the first computation has a result, so has the second one, in the relation; if it fails on
lists that are compared strictly, the second one fails with an answer to its fault. -/
inductive Outcomes (s : Seam) (R : α → β → Prop) : Except Fault α → Except Fault β → Prop
  | ok {a : α} {b : β} (h : R a b) : Outcomes s R (.ok a) (.ok b)
  | error {fault : Fault} {y : Except Fault β}
      (h : s.strict → ∃ answer, y = .error answer ∧ s.Answers fault answer) :
      Outcomes s R (.error fault) y

/-- Two parsers read the same at two cursors, and leave them side by side with fewer than `n` tokens
to read of the first list. -/
def Parallel (s : Seam) (n : Nat) (parser other : Parser α) (c d : Cursor) : Prop :=
  s.Outcomes (fun x y => x.1 = y.1 ∧ s.Beside x.2 y.2 ∧ x.2.rest.length < n) (parser c) (other d)

variable {n k : Nat} {parser other : Parser α}

theorem outcomes_bind {γ δ : Type} {R : α → β → Prop} {S : γ → δ → Prop} {x : Except Fault α}
    {y : Except Fault β} {f : α → Except Fault γ} {g : β → Except Fault δ} (h : s.Outcomes R x y)
    (hf : ∀ a b, R a b → s.Outcomes S (f a) (g b)) : s.Outcomes S (x >>= f) (y >>= g) := by
  cases h with
  | ok h => exact hf _ _ h
  | error h =>
    refine .error fun hs => ?_
    obtain ⟨answer, rfl, hanswer⟩ := h hs
    exact ⟨answer, rfl, hanswer⟩

theorem outcomes_mono {R S : α → β → Prop} {x : Except Fault α} {y : Except Fault β}
    (h : s.Outcomes R x y) (hr : ∀ a b, R a b → S a b) : s.Outcomes S x y := by
  cases h with
  | ok h => exact .ok (hr _ _ h)
  | error h => exact .error h

theorem parallel_mono (h : s.Parallel k parser other c d) (hk : k ≤ n) :
    s.Parallel n parser other c d :=
  outcomes_mono h fun _ _ hxy => ⟨hxy.1, hxy.2.1, Nat.lt_of_lt_of_le hxy.2.2 hk⟩

theorem parallel_pure (a : α) (h : s.Beside c d) (hn : c.rest.length < n) :
    s.Parallel n (pure a) (pure a) c d :=
  .ok ⟨rfl, h, hn⟩

theorem parallel_fail (cause cause' : SyntaxCause) (h : s.Beside c d)
    (hcause : s.strict → cause = cause') :
    s.Parallel n (Parser.fail cause : Parser α) (Parser.fail cause') c d := by
  refine .error fun hs => ?_
  rw [hcause hs]
  exact ⟨_, rfl, s.syntactic cause' ((h.current hs).alike hs)⟩

theorem parallel_bind {next next' : α → Parser β} (h : s.Parallel k parser other c d)
    (hn : ∀ a c' d', s.Beside c' d' → c'.rest.length < k →
      s.Parallel n (next a) (next' a) c' d') :
    s.Parallel n (parser >>= next) (other >>= next') c d := by
  refine outcomes_bind h fun x y hxy => ?_
  obtain ⟨a, c'⟩ := x
  obtain ⟨b, d'⟩ := y
  obtain ⟨rfl, hc, hlen⟩ : a = b ∧ s.Beside c' d' ∧ c'.rest.length < k := hxy
  exact hn a c' d' hc hlen

theorem parallel_get {next next' : Cursor → Parser β} (h : s.Parallel n (next c) (next' d) c d) :
    s.Parallel n (get >>= next) (get >>= next') c d := h

theorem parallel_set {next next' : Unit → Parser β} (c' d' : Cursor)
    (h : s.Parallel n (next ()) (next' ()) c' d') :
    s.Parallel n (set c' >>= next) (set d' >>= next') c d := h

theorem parallel_lift {x y : Except Fault α} {next next' : α → Parser β} (h : s.Outcomes Eq x y)
    (hn : ∀ a, s.Parallel n (next a) (next' a) c d) :
    s.Parallel n ((liftM x : Parser α) >>= next) ((liftM y : Parser α) >>= next') c d := by
  cases h with
  | ok h =>
    subst h
    exact hn _
  | error h =>
    refine .error fun hs => ?_
    obtain ⟨answer, rfl, hanswer⟩ := h hs
    exact ⟨answer, rfl, hanswer⟩

theorem parallel_next {next next' : Token → Parser β}
    (h : s.Parallel n (next c.current) (next' d.current) c.next d.next) :
    s.Parallel n (Parser.advance >>= next) (Parser.advance >>= next') c d := h

theorem parallel_advance {next next' : Token → Parser β} (h : s.Beside c d)
    (hk : c.kind ≠ .endOfText)
    (hn : ∀ t u c' d', t.kind = c.kind → s.Taken t u c' d' → c'.rest.length < c.rest.length →
      s.Parallel n (next t) (next' u) c' d') :
    s.Parallel n (Parser.advance >>= next) (Parser.advance >>= next') c d := by
  obtain ⟨hkind, htaken, hlen⟩ := h.taken hk
  exact hn _ _ _ _ hkind htaken hlen

theorem parallel_accept (kind : TokenKind) (hend : kind ≠ .endOfText) (hbreak : kind ≠ .newline)
    (h : s.Beside c d) :
    s.Parallel (c.rest.length + 1) (Parser.accept kind) (Parser.accept kind) c d := by
  apply parallel_get
  by_cases hk : c.kind = kind
  · rw [if_pos hk, if_pos ((h.kind_iff kind hend hbreak).mpr hk)]
    apply parallel_advance h (hk ▸ hend)
    intro t u c' d' _ htaken hlen
    exact parallel_pure true htaken.beside (Nat.lt_succ_of_lt hlen)
  · rw [if_neg hk, if_neg fun hd => hk ((h.kind_iff kind hend hbreak).mp hd)]
    exact parallel_pure false h (Nat.lt_succ_self _)

theorem outcomes_expect (kind : TokenKind) (cause : SyntaxCause) (hend : kind ≠ .endOfText)
    (hbreak : kind ≠ .newline) (h : s.Beside c d) :
    s.Outcomes (fun x y => x.1.kind = kind ∧ s.Taken x.1 y.1 x.2 y.2 ∧
        x.2.rest.length < c.rest.length)
      (Parser.expect kind cause c) (Parser.expect kind cause d) := by
  have hexpect : ∀ e : Cursor, Parser.expect kind cause e =
      (if e.kind = kind then Parser.advance else Parser.fail cause) e := fun _ => rfl
  rw [hexpect, hexpect]
  by_cases hk : c.kind = kind
  · rw [if_pos hk, if_pos ((h.kind_iff kind hend hbreak).mpr hk)]
    obtain ⟨hkind, htaken, hlen⟩ := h.taken (hk ▸ hend)
    exact .ok ⟨hkind.trans hk, htaken, hlen⟩
  · rw [if_neg hk, if_neg fun hd => hk ((h.kind_iff kind hend hbreak).mp hd)]
    exact .error fun hs => ⟨_, rfl, s.syntactic cause ((h.current hs).alike hs)⟩

theorem parallel_expect (kind : TokenKind) {cause : SyntaxCause} {next next' : Token → Parser β}
    (hend : kind ≠ .endOfText) (hbreak : kind ≠ .newline) (h : s.Beside c d)
    (hn : ∀ t u c' d', t.kind = kind → s.Taken t u c' d' → c'.rest.length < c.rest.length →
      s.Parallel n (next t) (next' u) c' d') :
    s.Parallel n (Parser.expect kind cause >>= next) (Parser.expect kind cause >>= next') c d := by
  apply outcomes_bind (outcomes_expect kind cause hend hbreak h)
  intro x y hxy
  obtain ⟨hkind, htaken, hlen⟩ := hxy
  exact hn x.1 y.1 x.2 y.2 hkind htaken hlen

/-- Items read as long as the next token allows it, each of which takes a token. The relation of the
cursors between two items is a parameter, since the last item may end at the seam. -/
theorem outcomes_repeatFrom (Q : Cursor → Cursor → Prop) (goesOn : Cursor → Bool)
    (item item' : Parser α) (hpos : ∀ c d, Q c d → 0 < c.rest.length)
    (hgo : ∀ c d, Q c d → goesOn d = goesOn c)
    (hitem : ∀ c d, Q c d → c.rest.length ≤ n → goesOn c = true →
      s.Outcomes (fun x y => x.1 = y.1 ∧ Q x.2 y.2 ∧ x.2.rest.length < c.rest.length) (item c)
        (item' d))
    (bound bound' : List Token) (c d : Cursor) (h : Q c d) (hn : c.rest.length ≤ n)
    (hb : c.rest.length ≤ bound.length) (hb' : c.rest.length ≤ bound'.length) :
    s.Outcomes (fun x y => x.1 = y.1 ∧ Q x.2 y.2 ∧ x.2.rest.length ≤ c.rest.length)
      (Parser.repeatFrom goesOn item bound c) (Parser.repeatFrom goesOn item' bound' d) := by
  -- an item that is read leaves fewer tokens, so both bounds last
  induction bound generalizing bound' c d with
  | nil =>
    have := hpos c d h
    rw [List.length_nil] at hb
    omega
  | cons t bound ih =>
    cases bound' with
    | nil =>
      have := hpos c d h
      rw [List.length_nil] at hb'
      omega
    | cons u bound' =>
      rw [List.length_cons] at hb hb'
      rw [Parser.repeatFrom_cons, Parser.repeatFrom_cons, hgo c d h]
      split
      next hgoes =>
        apply outcomes_bind (hitem c d h hn hgoes)
        intro x y hxy
        obtain ⟨hsame, hq, hlen⟩ := hxy
        apply outcomes_bind (ih bound' x.2 y.2 hq (by omega) (by omega) (by omega))
        intro xs ys hall
        obtain ⟨hsame', hq', hlen'⟩ := hall
        rw [hsame, hsame']
        exact .ok ⟨rfl, hq', Nat.le_trans hlen' (Nat.le_of_lt hlen)⟩
      next => exact .ok ⟨rfl, h, Nat.le_refl _⟩

theorem parallel_repeatWhile (goesOn : Cursor → Bool) (item item' : Parser α) (h : s.Beside c d)
    (hn : c.rest.length ≤ n) (hgo : ∀ c d, s.Beside c d → goesOn d = goesOn c)
    (hitem : ∀ c d, s.Beside c d → c.rest.length ≤ n → goesOn c = true →
      s.Parallel c.rest.length item item' c d) :
    s.Parallel (c.rest.length + 1) (Parser.repeatWhile goesOn item)
      (Parser.repeatWhile goesOn item') c d := by
  have hd := along_length h.rest
  have htail : 0 < s.tail.length := by
    rw [tail, List.length_append]
    have := List.length_pos_iff.mpr s.started
    omega
  have hall := outcomes_repeatFrom s.Beside goesOn item item' (fun c d h => h.pos) hgo hitem c.rest
    d.rest c d h hn (Nat.le_refl _) (by omega)
  exact outcomes_mono hall fun _ _ hxy => ⟨hxy.1, hxy.2.1, Nat.lt_succ_of_le hxy.2.2⟩

/-! ### Lists side by side -/

/-- A list and its image, which touch alike, go side by side up to the end of the list. -/
theorem along_map (s : Seam) (f : Token → Token) (body : List Token) (e : Token)
    (hbody : ∀ t ∈ body, t.kind ≠ .endOfText ∧ s.Twins t (f t))
    (htouch : ∀ t u, t.touches u = (f t).touches (f u)) (hend : e.kind = .endOfText)
    (hlast : s.strict → ∀ u ∈ s.start.head?, s.Twins e u) :
    s.Along (body ++ [e]) (body.map f ++ s.tail) := by
  induction body with
  | nil => exact .last hend rfl hlast
  | cons t body ih =>
    obtain ⟨⟨hkind, htwins⟩, hrest⟩ := List.forall_mem_cons.mp hbody
    refine .cons hkind htwins ?_ (ih hrest)
    cases body with
    | nil =>
      rintro _ ⟨⟩ _ _ _ hpart
      rw [hend] at hpart
      cases hpart
    | cons t' body =>
      rintro _ ⟨⟩ _ ⟨⟩ _ _
      exact htouch t t'

end Seam

end ProseGrammar
