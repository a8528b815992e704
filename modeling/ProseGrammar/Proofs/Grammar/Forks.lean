import ProseGrammar.Proofs.Grammar.Parallel

/-!
# Reading up to a bar

What is read in front of a bar does not depend on what stands behind it, nor on whether line breaks
stand between the two: no production that ends there, or before, looks further than to the next
token, and none but an alternative tells a bar from a line break. So a reader that has come to a
result in front of a bar comes to the same result, by the same tokens, where a list goes on
otherwise.
-/

namespace ProseGrammar

variable {α β : Type}

/-- Two ways in which a list of tokens goes on: with nothing in both, or with a bar and with a bar or
a line break. -/
structure Fork where
  bar : List Token
  other : List Token
  alike : bar = [] ∧ other = [] ∨ Cursor.kind ⟨0, bar⟩ = .pipe ∧
    (Cursor.kind ⟨0, other⟩ = .pipe ∨ Cursor.kind ⟨0, other⟩ = .newline)

namespace Fork

/-! ### Cursors in front of a fork -/

/-- Two cursors have the same tokens before and behind them up to the fork. -/
inductive Shared (f : Fork) : Cursor → Cursor → Prop
  | intro (index : Nat) (front : List Token) :
    Shared f ⟨index, front ++ f.bar⟩ ⟨index, front ++ f.other⟩

variable {f : Fork} {c d : Cursor} {m n k : Nat}

theorem Shared.index (h : f.Shared c d) : d.index = c.index := by
  cases h
  rfl

theorem Shared.length (h : f.Shared c d) :
    c.rest.length + f.other.length = d.rest.length + f.bar.length := by
  cases h
  simp only [List.length_append]
  omega

theorem shared_self (hbar : f.bar = []) (hother : f.other = []) (c : Cursor) : f.Shared c c := by
  have h : f.Shared ⟨c.index, c.rest ++ f.bar⟩ ⟨c.index, c.rest ++ f.other⟩ := .intro c.index c.rest
  rwa [hbar, hother, List.append_nil] at h

theorem eq_of_shared (h : f.Shared c d) (hbar : f.bar = []) (hother : f.other = []) : d = c := by
  cases h
  rw [hbar, hother]

/-- Two cursors in front of a fork are one, or stand at the fork, or at the same token. -/
theorem Shared.cases (h : f.Shared c d) :
    (f.bar = [] ∧ f.other = [] ∧ d = c) ∨
    (c.rest = f.bar ∧ c.kind = .pipe ∧ 0 < c.rest.length ∧ 0 < d.rest.length ∧
      (d.kind = .pipe ∨ d.kind = .newline)) ∨
    ∃ index t ts us, c = ⟨index, t :: ts⟩ ∧ d = ⟨index, t :: us⟩ ∧
      f.Shared ⟨index + 1, ts⟩ ⟨index + 1, us⟩ := by
  cases h with
  | intro index front =>
    cases front with
    | cons t front => exact .inr (.inr ⟨index, t, _, _, rfl, rfl, .intro (index + 1) front⟩)
    | nil =>
      rcases f.alike with ⟨hbar, hother⟩ | ⟨hbar, hother⟩
      · exact .inl ⟨hbar, hother, by rw [hbar, hother]⟩
      · refine .inr (.inl ⟨rfl, hbar, ?_, ?_, hother⟩)
        · refine List.length_pos_iff.mpr fun hnil => ?_
          have hnil : f.bar = [] := hnil
          rw [hnil] at hbar
          cases hbar
        · refine List.length_pos_iff.mpr fun hnil => ?_
          have hnil : f.other = [] := hnil
          rw [hnil] at hother
          rcases hother with hother | hother <;> cases hother

theorem Shared.pos (h : f.Shared c d) (hc : 0 < c.rest.length) : 0 < d.rest.length := by
  rcases h.cases with ⟨_, _, rfl⟩ | ⟨_, _, _, hd, _⟩ | ⟨_, _, _, _, rfl, rfl, _⟩
  · exact hc
  · exact hd
  · exact Nat.succ_pos _

theorem Shared.kind (h : f.Shared c d) (hk : c.kind ≠ .pipe) : d.kind = c.kind := by
  rcases h.cases with ⟨_, _, rfl⟩ | ⟨_, hpipe, _⟩ | ⟨_, _, _, _, rfl, rfl, _⟩
  · rfl
  · exact absurd hpipe hk
  · rfl

theorem Shared.current (h : f.Shared c d) (hk : c.kind ≠ .pipe) : d.current = c.current := by
  rcases h.cases with ⟨_, _, rfl⟩ | ⟨_, hpipe, _⟩ | ⟨_, _, _, _, rfl, rfl, _⟩
  · rfl
  · exact absurd hpipe hk
  · rfl

/-- A class of tokens that has both the bar and the line break or none of them is the same at the two
cursors. -/
theorem Shared.class_eq (h : f.Shared c d) (p : TokenKind → Bool) (hp : p .pipe = p .newline) :
    p d.kind = p c.kind := by
  rcases h.cases with ⟨_, _, rfl⟩ | ⟨_, hpipe, _, _, hd⟩ | ⟨_, _, _, _, rfl, rfl, _⟩
  · rfl
  · rw [hpipe]
    rcases hd with hd | hd <;> rw [hd]
    exact hp.symm
  · rfl

theorem Shared.kind_of (h : f.Shared c d) (kind : TokenKind) (hbreak : kind ≠ .newline)
    (hd : d.kind = kind) : c.kind = kind := by
  rcases h.cases with ⟨_, _, rfl⟩ | ⟨_, hpipe, _, _, hd'⟩ | ⟨_, _, _, _, rfl, rfl, _⟩
  · exact hd
  · rcases hd' with hd' | hd'
    · rw [hpipe, ← hd, hd']
    · exact absurd (hd.symm.trans hd') hbreak
  · exact hd

/-- Looking one token ahead from a token that is no bar sees the same class of tokens. -/
theorem Shared.class_ahead (h : f.Shared c d) (hk : c.kind ≠ .pipe) (p : TokenKind → Bool)
    (hp : p .pipe = p .newline) : p (d.kindAt 1) = p (c.kindAt 1) := by
  rcases h.cases with ⟨_, _, rfl⟩ | ⟨_, hpipe, _⟩ | ⟨index, _, ts, us, rfl, rfl, hafter⟩
  · rfl
  · exact absurd hpipe hk
  · have hclass : p (Cursor.kind ⟨index + 1, us⟩) = p (Cursor.kind ⟨index + 1, ts⟩) :=
      hafter.class_eq p hp
    exact hclass

theorem length_next (c : Cursor) : c.next.rest <:+ c.rest ∧ c.next.rest.length ≤ c.rest.length ∧
    (c.kind ≠ .endOfText → c.next.rest.length < c.rest.length) := by
  obtain ⟨index, ts⟩ := c
  cases ts with
  | nil => exact ⟨List.suffix_rfl, Nat.le_refl _, fun h => absurd rfl h⟩
  | cons t ts =>
    by_cases hk : t.kind = .endOfText
    · have hstay : Cursor.next ⟨index, t :: ts⟩ = ⟨index, t :: ts⟩ := if_pos hk
      rw [hstay]
      exact ⟨List.suffix_rfl, Nat.le_refl _, fun h => absurd hk h⟩
    · have hnext : Cursor.next ⟨index, t :: ts⟩ = ⟨index + 1, ts⟩ := if_neg hk
      rw [hnext]
      exact ⟨List.suffix_cons t ts, Nat.le_succ _, fun _ => Nat.lt_succ_self _⟩

theorem Shared.step (h : f.Shared c d) (hk : c.kind ≠ .pipe) : f.Shared c.next d.next := by
  rcases h.cases with ⟨hbar, hother, rfl⟩ | ⟨_, hpipe, _⟩ | ⟨index, t, ts, us, rfl, rfl, hafter⟩
  · exact shared_self hbar hother _
  · exact absurd hpipe hk
  · by_cases hend : t.kind = .endOfText
    · have hstay : ∀ rest, Cursor.next ⟨index, t :: rest⟩ = ⟨index, t :: rest⟩ := fun _ => if_pos hend
      rw [hstay, hstay]
      exact h
    · have hnext : ∀ rest, Cursor.next ⟨index, t :: rest⟩ = ⟨index + 1, rest⟩ := fun _ => if_neg hend
      rw [hnext, hnext]
      exact hafter

theorem Shared.next (h : f.Shared c d) (hlen : f.bar.length ≤ c.next.rest.length) :
    d.kind = c.kind ∧ d.current = c.current ∧ f.Shared c.next d.next := by
  rcases h.cases with ⟨hbar, hother, rfl⟩ | ⟨hbar, hpipe, _⟩ | ⟨index, t, ts, us, rfl, rfl, hafter⟩
  · exact ⟨rfl, rfl, shared_self hbar hother _⟩
  · have hless := (length_next c).2.2 (by rw [hpipe]; nofun)
    rw [hbar] at hless
    omega
  · refine ⟨rfl, rfl, ?_⟩
    by_cases hpipe : t.kind = .pipe
    · have hnext : ∀ rest, Cursor.next ⟨index, t :: rest⟩ = ⟨index + 1, rest⟩ :=
        fun _ => if_neg (show t.kind ≠ .endOfText by rw [hpipe]; nofun)
      rw [hnext, hnext]
      exact hafter
    · exact h.step hpipe

/-! ### Parsers in front of a fork -/

/-- What the first parser reads from a cursor on, with fewer than `n` tokens left behind it and at
least `m` of them in front of the fork, the second parser reads at every cursor with the same tokens
in front of the fork. -/
def Keeps (f : Fork) (m n : Nat) (parser other : Parser α) (c : Cursor) : Prop :=
  ∀ a e, parser c = .ok (a, e) → e.rest <:+ c.rest ∧ e.rest.length < n ∧
    ∀ d, f.Shared c d → f.bar.length + m ≤ e.rest.length →
      ∃ e', other d = .ok (a, e') ∧ f.Shared e e'

variable {parser other : Parser α}

theorem keeps_mono (h : f.Keeps m k parser other c) (hk : k ≤ n) : f.Keeps m n parser other c := by
  intro a e he
  obtain ⟨hsuffix, hlen, hsame⟩ := h a e he
  exact ⟨hsuffix, Nat.lt_of_lt_of_le hlen hk, hsame⟩

theorem keeps_error (h : ∀ a e, parser c ≠ .ok (a, e)) : f.Keeps m n parser other c :=
  fun a e he => absurd he (h a e)

theorem keeps_fail (cause : SyntaxCause) : f.Keeps m n (Parser.fail cause) other c :=
  keeps_error fun _ _ h => nomatch h

theorem keeps_pure (a : α) (hn : c.rest.length < n) : f.Keeps m n (pure a) (pure a) c := by
  intro b e he
  cases he
  exact ⟨List.suffix_rfl, hn, fun d h _ => ⟨d, rfl, h⟩⟩

theorem keeps_bind {next next' : α → Parser β} (h : f.Keeps m k parser other c)
    (hn : ∀ a e, e.rest.length < k → f.Keeps m n (next a) (next' a) e) :
    f.Keeps m n (parser >>= next) (other >>= next') c := by
  intro b e he
  obtain ⟨⟨a, c₁⟩, hfirst, hrest⟩ := (bind_ok_iff _ _ _).mp he
  obtain ⟨hsuffix, hlen, hsame⟩ := h a c₁ hfirst
  obtain ⟨hsuffix', hlen', hsame'⟩ := hn a c₁ hlen b e hrest
  have hshort := hsuffix'.length_le
  refine ⟨hsuffix'.trans hsuffix, hlen', fun d hd hfork => ?_⟩
  obtain ⟨d₁, hfirst', hd₁⟩ := hsame d hd (by omega)
  obtain ⟨e', hrest', he'⟩ := hsame' d₁ hd₁ hfork
  exact ⟨e', (bind_ok_iff _ _ _).mpr ⟨(a, d₁), hfirst', hrest'⟩, he'⟩

theorem get_apply (next : Cursor → Parser β) (c : Cursor) : (get >>= next) c = next c c := rfl

theorem keeps_get {next next' : Cursor → Parser β}
    (hsame : ∀ d, f.Shared c d → next' d d = next' c d) (h : f.Keeps m n (next c) (next' c) c) :
    f.Keeps m n (get >>= next) (get >>= next') c := by
  intro b e he
  obtain ⟨hsuffix, hlen, hafter⟩ := h b e he
  refine ⟨hsuffix, hlen, fun d hd hfork => ?_⟩
  obtain ⟨e', he', hshared⟩ := hafter d hd hfork
  exact ⟨e', (hsame d hd).trans he', hshared⟩

theorem keeps_lift {x y : Except Fault α} {next next' : α → Parser β}
    (hxy : ∀ a, x = .ok a → y = .ok a) (hn : ∀ a, f.Keeps m n (next a) (next' a) c) :
    f.Keeps m n ((liftM x : Parser α) >>= next) ((liftM y : Parser α) >>= next') c := by
  cases x with
  | error fault => exact keeps_error fun _ _ h => nomatch h
  | ok a =>
    rw [hxy a rfl]
    exact hn a

theorem keeps_next {next next' : Token → Parser β}
    (h : f.Keeps m n (next c.current) (next' c.current) c.next) :
    f.Keeps m n (Parser.advance >>= next) (Parser.advance >>= next') c := by
  intro b e he
  obtain ⟨hsuffix, hlen, hsame⟩ := h b e he
  have hshort := hsuffix.length_le
  refine ⟨hsuffix.trans (length_next c).1, hlen, fun d hd hfork => ?_⟩
  obtain ⟨_, hcurrent, hnext⟩ := hd.next (by omega)
  obtain ⟨e', he', hshared⟩ := hsame d.next hnext hfork
  rw [← hcurrent] at he'
  exact ⟨e', he', hshared⟩

theorem keeps_advance (hk : c.kind ≠ .endOfText) :
    f.Keeps m c.rest.length Parser.advance Parser.advance c := by
  intro t e he
  cases he
  obtain ⟨hsuffix, _, hless⟩ := length_next c
  refine ⟨hsuffix, hless hk, fun d hd hfork => ?_⟩
  obtain ⟨_, hcurrent, hnext⟩ := hd.next (by omega)
  rw [← hcurrent]
  exact ⟨d.next, rfl, hnext⟩

theorem keeps_accept (kind : TokenKind) (hbreak : kind ≠ .newline) :
    f.Keeps m (c.rest.length + 1) (Parser.accept kind) (Parser.accept kind) c := by
  have haccept : ∀ e : Cursor, Parser.accept kind e =
      (if e.kind = kind then .ok (true, e.next) else .ok (false, e)) := by
    intro e
    by_cases hk : e.kind = kind
    · rw [if_pos hk]
      exact congrArg (fun p : Parser Bool => p e) (if_pos hk)
    · rw [if_neg hk]
      exact congrArg (fun p : Parser Bool => p e) (if_neg hk)
  intro a e he
  rw [haccept] at he
  obtain ⟨hsuffix, hlen, hless⟩ := length_next c
  by_cases hk : c.kind = kind
  · rw [if_pos hk] at he
    cases he
    refine ⟨hsuffix, by omega, fun d hd hfork => ?_⟩
    obtain ⟨hkind, _, hnext⟩ := hd.next (by omega)
    rw [haccept, if_pos (hkind.trans hk)]
    exact ⟨d.next, rfl, hnext⟩
  · rw [if_neg hk] at he
    cases he
    refine ⟨List.suffix_rfl, Nat.lt_succ_self _, fun d hd _ => ?_⟩
    rw [haccept, if_neg fun hkind => hk (hd.kind_of kind hbreak hkind)]
    exact ⟨d, rfl, hd⟩

theorem keeps_expect (kind : TokenKind) (cause : SyntaxCause) (hend : kind ≠ .endOfText) :
    f.Keeps m c.rest.length (Parser.expect kind cause) (Parser.expect kind cause) c := by
  have hexpect : ∀ e : Cursor, Parser.expect kind cause e =
      (if e.kind = kind then Parser.advance else Parser.fail cause) e := fun _ => rfl
  by_cases hk : c.kind = kind
  · intro t e he
    rw [hexpect, if_pos hk] at he
    obtain ⟨hsuffix, hlen, hsame⟩ := keeps_advance (f := f) (m := m) (hk ▸ hend) t e he
    refine ⟨hsuffix, hlen, fun d hd hfork => ?_⟩
    cases he
    rw [hexpect, if_pos ((hd.next (by omega)).1.trans hk)]
    exact hsame d hd hfork
  · refine keeps_error fun t e he => ?_
    rw [hexpect, if_neg hk] at he
    cases he

theorem pos_of_kind (hk : c.kind ≠ .endOfText) : 0 < c.rest.length := by
  refine List.length_pos_iff.mpr fun hnil => ?_
  obtain ⟨index, ts⟩ := c
  subst hnil
  exact hk rfl

/-- Items read as long as the next token allows another one, each of which takes a token. -/
theorem keeps_repeatFrom {goesOn : Cursor → Bool} {item item' : Parser α}
    (hgo : ∀ c d, f.Shared c d → f.bar.length + m ≤ c.rest.length → goesOn d = goesOn c)
    (hend : ∀ c, goesOn c = true → c.kind ≠ .endOfText)
    (hitem : ∀ c, goesOn c = true → f.Keeps m c.rest.length item item' c)
    (bound : List Token) (c : Cursor) (hb : c.rest.length ≤ bound.length) (as : List α) (e : Cursor)
    (he : Parser.repeatFrom goesOn item bound c = .ok (as, e)) :
    e.rest <:+ c.rest ∧ ∀ d bound', f.Shared c d → f.bar.length + m ≤ e.rest.length →
      d.rest.length ≤ bound'.length →
        ∃ e', Parser.repeatFrom goesOn item' bound' d = .ok (as, e') ∧ f.Shared e e' := by
  -- both bounds are as long as their lists, and the items of the two lists end at the same tokens
  induction bound generalizing c as with
  | nil =>
    cases he
    refine ⟨List.suffix_rfl, fun d bound' hd hfork _ => ⟨d, ?_, hd⟩⟩
    have hstop : goesOn d = false := by
      rw [hgo _ d hd hfork, Bool.eq_false_iff]
      intro hgoes
      have hpos := pos_of_kind (hend _ hgoes)
      rw [List.length_nil] at hb
      omega
    exact Parser.repeatFrom_stop hstop bound'
  | cons t bound ih =>
    rw [List.length_cons] at hb
    rcases Parser.repeatFrom_cases he with
      ⟨hstop, rfl, rfl⟩ | ⟨a, c₁, others, hgoes, hfirst, hothers, rfl⟩
    · refine ⟨List.suffix_rfl, fun d bound' hd hfork _ => ⟨d, ?_, hd⟩⟩
      exact Parser.repeatFrom_stop ((hgo _ d hd hfork).trans hstop) bound'
    · obtain ⟨hsuffix, hlen, hsame⟩ := hitem c hgoes a c₁ hfirst
      obtain ⟨hsuffix', hsame'⟩ := ih c₁ (by omega) others hothers
      have hlen' := hsuffix'.length_le
      refine ⟨hsuffix'.trans hsuffix, fun d bound' hd hfork hb' => ?_⟩
      obtain ⟨d₁, hfirst', hd₁⟩ := hsame d hd (by omega)
      have hpos := hd.pos (by omega)
      have hboth := hd.length
      have hboth₁ := hd₁.length
      cases bound' with
      | nil =>
        rw [List.length_nil] at hb'
        omega
      | cons u bound' =>
        rw [List.length_cons] at hb'
        obtain ⟨d₂, hothers', hd₂⟩ := hsame' d₁ bound' hd₁ hfork (by omega)
        have hgoes' := (hgo c d hd (by omega)).trans hgoes
        exact ⟨d₂, Parser.repeatFrom_next hgoes' hfirst' hothers' u, hd₂⟩

theorem keeps_repeatWhile {goesOn : Cursor → Bool} {item item' : Parser α}
    (hgo : ∀ c d, f.Shared c d → f.bar.length + m ≤ c.rest.length → goesOn d = goesOn c)
    (hend : ∀ c, goesOn c = true → c.kind ≠ .endOfText)
    (hitem : ∀ c, goesOn c = true → f.Keeps m c.rest.length item item' c) (c : Cursor) :
    f.Keeps m (c.rest.length + 1) (Parser.repeatWhile goesOn item)
      (Parser.repeatWhile goesOn item') c := by
  intro as e he
  obtain ⟨hsuffix, hsame⟩ := keeps_repeatFrom hgo hend hitem c.rest c (Nat.le_refl _) as e he
  exact ⟨hsuffix, Nat.lt_succ_of_le hsuffix.length_le,
    fun d hd hfork => hsame d d.rest hd hfork (Nat.le_refl _)⟩

/-! ### References -/

theorem kind_fork (f : Fork) (ts : List Token) (h : ts = f.bar ∨ ts = f.other) (t : Token)
    (ht : t ∈ ts.head?) : t.kind = .pipe ∨ t.kind = .newline := by
  have hkind : Cursor.kind ⟨0, ts⟩ = t.kind := by
    cases ts with
    | nil => cases ht
    | cons u ts =>
      obtain rfl : u = t := Option.some.inj ht
      rfl
  rcases f.alike with ⟨hbar, hother⟩ | ⟨hbar, hother⟩
  · rcases h with rfl | rfl
    · rw [hbar] at ht
      cases ht
    · rw [hother] at ht
      cases ht
  · rw [← hkind]
    rcases h with rfl | rfl
    · exact .inl hbar
    · exact hother

/-- A path ends at a bar and at a line break. -/
theorem segments_fork (t : Token) (front : List Token) :
    Parser.segments t (front ++ f.other) = Parser.segments t (front ++ f.bar) ∧
      2 * (Parser.segments t (front ++ f.bar)).length ≤ front.length := by
  have hstop : ∀ tail, tail = f.bar ∨ tail = f.other → ∀ u ∈ tail.head?,
      u.kind ≠ .dot ∧ u.kind ≠ .identifier := by
    intro tail htail u hu
    rcases kind_fork f tail htail u hu with hk | hk <;> rw [hk] <;> exact ⟨nofun, nofun⟩
  -- two tokens at a time, as the parser goes
  induction hlen : front.length using Nat.strongRecOn generalizing t front with
  | ind n ih =>
  cases front with
  | nil =>
    have hnone : ∀ tail, tail = f.bar ∨ tail = f.other → Parser.segments t ([] ++ tail) = [] := by
      intro tail htail
      apply Seam.segments_of_stop
      intro p name rest heq
      exact .inl (hstop tail htail p (by rw [List.nil_append] at heq; rw [heq]; rfl)).1
    rw [hnone _ (.inl rfl), hnone _ (.inr rfl)]
    exact ⟨rfl, Nat.zero_le _⟩
  | cons p front =>
  cases front with
  | nil =>
    have hnone : ∀ tail, tail = f.bar ∨ tail = f.other → Parser.segments t ([p] ++ tail) = [] := by
      intro tail htail
      apply Seam.segments_of_stop
      rintro _ name rest heq
      obtain ⟨_, heq⟩ := List.cons.inj heq
      have heq : tail = name :: rest := heq
      exact .inr (hstop tail htail name (by rw [heq]; rfl)).2
    rw [hnone _ (.inl rfl), hnone _ (.inr rfl)]
    exact ⟨rfl, Nat.zero_le _⟩
  | cons name front =>
    simp only [List.length_cons] at hlen
    obtain ⟨hsame, hshort⟩ := ih front.length (by omega) name front rfl
    simp only [List.cons_append, Parser.segments]
    split
    · rw [hsame]
      refine ⟨rfl, ?_⟩
      simp only [List.length_cons]
      omega
    · exact ⟨rfl, Nat.zero_le _⟩

theorem keeps_path (t : Token) :
    f.Keeps m (c.rest.length + 1) (Parser.path t) (Parser.path t) c := by
  have hpath : ∀ e : Cursor, Parser.path t e = .ok (t.value :: Parser.segments t e.rest,
      ⟨e.index + 2 * (Parser.segments t e.rest).length,
        e.rest.drop (2 * (Parser.segments t e.rest).length)⟩) := fun _ => rfl
  intro a e he
  rw [hpath] at he
  cases he
  refine ⟨List.drop_suffix _ _, ?_, fun d hd _ => ?_⟩
  · rw [List.length_drop]
    omega
  · cases hd with
    | intro index front =>
      obtain ⟨hsame, hshort⟩ := segments_fork (f := f) t front
      rw [hpath]
      dsimp only
      rw [hsame, List.drop_append_of_le_length hshort, List.drop_append_of_le_length hshort]
      exact ⟨_, rfl, .intro _ _⟩

theorem keeps_dollar : f.Keeps m c.rest.length Parser.dollar Parser.dollar c := by
  apply keeps_bind (keeps_accept .dollar nofun)
  intro knowledge c₁ hlen₁
  split
  · apply keeps_bind (keeps_expect .dot _ nofun)
    intro _ c₂ hlen₂
    apply keeps_bind (keeps_expect .identifier _ nofun)
    intro t c₃ hlen₃
    apply keeps_bind (keeps_path t)
    intro path c₄ hlen₄
    exact keeps_pure _ (by omega)
  · apply keeps_bind (keeps_expect .identifier _ nofun)
    intro t c₂ hlen₂
    apply keeps_bind (keeps_path t)
    intro path c₃ hlen₃
    apply keeps_get
    · intro d hd
      rw [hd.class_eq TokenKind.makesVariable rfl]
    · split
      · exact keeps_pure _ (by omega)
      · exact keeps_pure _ (by omega)

/-! ### Expressions -/

theorem keeps_numeral (negative : Bool) (hk : c.kind = .number) :
    f.Keeps m c.rest.length (Parser.Inner.numeral negative) (Parser.Inner.numeral negative) c := by
  apply keeps_bind (keeps_advance (by rw [hk]; nofun))
  intro t c₁ hlen₁
  apply keeps_lift fun _ h => h
  intro number
  cases number with
  | some n => exact keeps_pure _ hlen₁
  | none => exact keeps_pure _ hlen₁

/-- The parsers of an inner level read the same in front of a fork. -/
structure Kept (f : Fork) (m : Nat) (inner other : Parser.Inner) : Prop where
  expression : ∀ c, f.Keeps m c.rest.length inner.expression other.expression c
  assignment : ∀ c, f.Keeps m c.rest.length inner.assignment other.assignment c
  conditionalTail : ∀ condition c, f.Keeps m (c.rest.length + 1) (inner.conditionalTail condition)
    (other.conditionalTail condition) c
  unnamed : ∀ index target, inner.unnamed index = .ok target → other.unnamed index = .ok target

variable {inner outer : Parser.Inner}

theorem keeps_bracket (hi : f.Kept m inner outer) :
    f.Keeps m c.rest.length inner.bracket outer.bracket c := by
  apply keeps_bind (keeps_accept .bang nofun)
  intro silent c₁ hlen₁
  apply keeps_bind (hi.expression c₁)
  intro first c₂ hlen₂
  apply keeps_bind (keeps_repeatWhile ?_ ?_ ?_ c₂)
  · intro others c₃ hlen₃
    apply keeps_bind (keeps_expect .rightBracket _ nofun)
    intro _ c₄ hlen₄
    exact keeps_pure _ (by omega)
  · intro c d hd _
    exact hd.class_eq (fun k => k = .semicolon) rfl
  · intro c hgoes
    rw [of_decide_eq_true hgoes]
    nofun
  · intro c hgoes
    apply keeps_bind (keeps_advance (by rw [of_decide_eq_true hgoes]; nofun))
    intro _ c' hlen'
    exact keeps_mono (hi.expression c') (by omega)

theorem keeps_text (hk : c.kind ≠ .endOfText) :
    f.Keeps m c.rest.length (Parser.advance >>= fun t => pure (Node.literal (.text t.value)))
      (Parser.advance >>= fun t => pure (Node.literal (.text t.value))) c := by
  apply keeps_bind (keeps_advance hk)
  intro t c₁ hlen
  exact keeps_pure _ hlen

theorem keeps_primary (hi : f.Kept m inner outer) :
    f.Keeps m c.rest.length inner.primary outer.primary c := by
  by_cases hpipe : c.kind = .pipe
  · refine keeps_error fun a e he => ?_
    unfold Parser.Inner.primary at he
    rw [get_apply, hpipe] at he
    cases he
  apply keeps_get
  · intro d hd
    rw [hd.kind hpipe, hd.current hpipe, hd.class_ahead hpipe (fun k => k = .number) rfl]
  · split
    next hk => exact keeps_numeral false hk
    next hk => exact keeps_text (by rw [hk]; nofun)
    next hk => exact keeps_text (by rw [hk]; nofun)
    next hk =>
      apply keeps_bind (keeps_advance (by rw [hk]; nofun))
      intro _ c₁ hlen
      exact keeps_mono keeps_dollar (by omega)
    next hk =>
      apply keeps_bind (keeps_advance (by rw [hk]; nofun))
      intro _ c₁ hlen
      apply keeps_bind (hi.expression c₁)
      intro node c₂ hlen₂
      apply keeps_bind (keeps_expect .rightParen _ nofun)
      intro _ c₃ hlen₃
      exact keeps_pure node (by omega)
    next hk =>
      apply keeps_bind (keeps_advance (by rw [hk]; nofun))
      intro _ c₁ hlen
      exact keeps_mono (keeps_bracket hi) (by omega)
    next =>
      split
      next hminus =>
        simp only [Bool.and_eq_true, decide_eq_true_eq] at hminus
        have hk : c.kind ≠ .endOfText := by
          rw [hminus.1]
          nofun
        have hnumber : c.next.kind = .number := (Seam.kindAt_succ c hk 0).symm.trans hminus.2
        apply keeps_next
        exact keeps_mono (keeps_numeral true hnumber) (Nat.le_of_lt ((length_next c).2.2 hk))
      next => exact keeps_fail _

/-- Operands with operators of one class between them, which has neither the bar nor the line break. -/
theorem keeps_chain (isOperator : TokenKind → Bool) (operand operand' : Parser Node)
    (hend : isOperator .endOfText = false) (hbar : isOperator .pipe = isOperator .newline)
    (ho : ∀ c, f.Keeps m c.rest.length operand operand' c) (c : Cursor) :
    f.Keeps m c.rest.length (Parser.Inner.chain isOperator operand)
      (Parser.Inner.chain isOperator operand') c := by
  have hgoes : ∀ c : Cursor, isOperator c.kind = true → c.kind ≠ .endOfText := by
    intro c hoperator hk
    rw [hk, hend] at hoperator
    cases hoperator
  apply keeps_bind (ho c)
  intro first c₁ hlen₁
  apply keeps_bind (keeps_repeatWhile ?_ hgoes ?_ c₁)
  · intro others c₂ hlen₂
    exact keeps_pure _ (by omega)
  · intro c d hd _
    exact hd.class_eq isOperator hbar
  · intro c hoperator
    apply keeps_bind (keeps_advance (hgoes c hoperator))
    intro t c' hlen'
    apply keeps_bind (ho c')
    intro right c'' hlen''
    exact keeps_pure _ (by omega)

theorem keeps_comparison (hi : f.Kept m inner outer) :
    f.Keeps m c.rest.length inner.comparison outer.comparison c := by
  have hproduct := keeps_chain (f := f) (m := m) TokenKind.isMultiplicative _ _ rfl rfl
    fun _ => keeps_primary hi
  have hsum := keeps_chain TokenKind.isAdditive _ _ rfl rfl hproduct
  exact keeps_chain TokenKind.isComparison _ _ rfl rfl hsum c

theorem keeps_finishAssignment (hi : f.Kept m inner outer) (target : Reference)
    (hk : c.kind.isAssignment = true) :
    f.Keeps m c.rest.length (inner.finishAssignment target) (outer.finishAssignment target) c := by
  apply keeps_bind (keeps_advance ?_)
  · intro t c₁ hlen
    apply keeps_bind (hi.assignment c₁)
    intro value c₂ hlen₂
    exact keeps_pure _ (by omega)
  · intro hend
    rw [hend] at hk
    cases hk

theorem keeps_readAssignment (hi : f.Kept m inner outer) :
    f.Keeps m c.rest.length inner.readAssignment outer.readAssignment c := by
  apply keeps_bind (keeps_comparison hi)
  intro node c₁ hlen₁
  apply keeps_get
  · intro d hd
    rw [hd.class_eq TokenKind.isAssignment rfl, hd.index]
  · split
    next hk =>
      have hfinish : ∀ target, f.Keeps m c.rest.length (inner.finishAssignment target)
          (outer.finishAssignment target) c₁ := by
        intro target
        exact keeps_mono (keeps_finishAssignment hi target hk) (Nat.le_of_lt hlen₁)
      split
      next target => exact hfinish target
      next => exact keeps_lift (hi.unnamed c₁.index) hfinish
    next => exact keeps_pure node hlen₁

theorem keeps_branchPart (hi : f.Kept m inner outer) :
    f.Keeps m c.rest.length inner.branchPart outer.branchPart c := by
  apply keeps_get
  · intro d hd
    rw [hd.class_eq TokenKind.isBranchText rfl]
  · split
    next hk =>
      apply keeps_text
      intro hend
      rw [hend] at hk
      cases hk
    next => exact keeps_readAssignment hi

theorem keeps_branch (hi : f.Kept m inner outer) (before : List Node) :
    f.Keeps m (c.rest.length + 1) (inner.branch before) (outer.branch before) c := by
  apply keeps_bind (keeps_repeatWhile ?_ ?_ ?_ c)
  · intro others c₁ hlen₁
    split
    · exact keeps_fail _
    · exact keeps_pure _ hlen₁
    · exact keeps_pure _ hlen₁
  · intro c d hd _
    exact hd.class_eq (fun k => !k.endsBranch) rfl
  · intro c hgoes hend
    rw [hend] at hgoes
    cases hgoes
  · intro c _
    exact keeps_branchPart hi

theorem keeps_readConditionalTail (hi : f.Kept m inner outer) (condition : Node) :
    f.Keeps m (c.rest.length + 1) (inner.readConditionalTail condition)
      (outer.readConditionalTail condition) c := by
  apply keeps_bind (keeps_branch hi [])
  intro whenTrue c₁ hlen₁
  apply keeps_bind (keeps_accept .pipe nofun)
  intro more c₂ hlen₂
  split
  · apply keeps_bind (keeps_branchPart hi)
    intro first c₃ hlen₃
    apply keeps_get
    · intro d hd
      have htest : (decide (d.kind = .question) && !(d.kindAt 1).endsBranch) =
          (decide (c₃.kind = .question) && !(c₃.kindAt 1).endsBranch) := by
        rw [hd.class_eq (fun k => k = .question) rfl]
        by_cases hk : c₃.kind = .question
        · rw [hd.class_ahead (by rw [hk]; nofun) TokenKind.endsBranch rfl]
        · rw [decide_eq_false hk, Bool.false_and, Bool.false_and]
      rw [htest]
    · split
      next hasks =>
        apply keeps_bind (keeps_advance ?_)
        · intro _ c₄ hlen₄
          apply keeps_bind (hi.conditionalTail first c₄)
          intro whenFalse c₅ hlen₅
          exact keeps_pure _ (by omega)
        · intro hend
          rw [hend] at hasks
          cases hasks
      next =>
        apply keeps_bind (keeps_branch hi [first])
        intro whenFalse c₄ hlen₄
        exact keeps_pure _ (by omega)
  · exact keeps_pure _ (by omega)

theorem keeps_readExpression (hi : f.Kept m inner outer) :
    f.Keeps m c.rest.length inner.readExpression outer.readExpression c := by
  apply keeps_bind (keeps_readAssignment hi)
  intro condition c₁ hlen₁
  apply keeps_bind (keeps_accept .question nofun)
  intro asks c₂ hlen₂
  split
  · exact keeps_mono (keeps_readConditionalTail hi condition) (by omega)
  · exact keeps_pure condition (by omega)

theorem kept_outer (hi : f.Kept m inner outer) : f.Kept m inner.outer outer.outer where
  expression _ := keeps_readExpression hi
  assignment _ := keeps_readAssignment hi
  conditionalTail condition _ := keeps_readConditionalTail hi condition
  unnamed := hi.unnamed

/-- Where the first way to name targets gives one, the second way gives the same. -/
theorem kept_levelBy (names names' : Nat → Except Fault Reference)
    (hnames : ∀ index target, names index = .ok target → names' index = .ok target) (depth : Nat) :
    f.Kept m (Parser.Inner.levelBy names depth) (Parser.Inner.levelBy names' depth) := by
  induction depth with
  | zero =>
    have hrefused : ∀ (k : Nat) (c : Cursor),
        f.Keeps m k (throw .nesting : Parser Node) (throw .nesting) c := by
      intro k c
      exact keeps_error fun _ _ he => nomatch he
    exact ⟨fun c => hrefused _ c, fun c => hrefused _ c, fun _ c => hrefused _ c, hnames⟩
  | succ depth ih => exact kept_outer ih

/-! ### Alternatives and rules -/

theorem keeps_element (hi : f.Kept m inner outer) (hk : c.kind ≠ .endOfText) :
    f.Keeps m c.rest.length (Parser.element inner) (Parser.element outer) c := by
  apply keeps_bind (keeps_advance hk)
  intro t c₁ hlen₁
  split
  · exact keeps_mono (keeps_bracket hi) (Nat.le_of_lt hlen₁)
  · apply keeps_bind keeps_dollar
    intro node c₂ hlen₂
    split
    next target =>
      apply keeps_get
      · intro d hd
        rw [hd.class_eq TokenKind.isAssignment rfl]
      · split
        next hassign => exact keeps_mono (keeps_finishAssignment hi target hassign) (by omega)
        next => exact keeps_pure _ (by omega)
    next => exact keeps_pure _ (by omega)
  · exact keeps_pure _ hlen₁
  · exact keeps_pure _ hlen₁

theorem keeps_weight : f.Keeps m (c.rest.length + 1) Parser.weight Parser.weight c := by
  by_cases hk : c.kind = .number
  · have hplain : ∀ d, f.Shared c d → d.kind = .number := by
      intro d hd
      rw [hd.kind (by rw [hk]; nofun), hk]
    apply keeps_get
    · intro d hd
      rw [hplain d hd, hk]
      rfl
    · rw [hk]
      apply keeps_bind (k := c.rest.length) (keeps_advance (by rw [hk]; nofun))
      intro t c₁ hlen
      split
      · exact keeps_error fun _ _ he => nomatch he
      · exact keeps_pure _ (by omega)
  · refine keeps_error fun a e he => ?_
    unfold Parser.weight at he
    rw [get_apply, if_neg hk] at he
    split at he <;> cases he

/-- Whether cursors in front of a fork stand at tokens of the same kind as long as at least `m` tokens
in front of the fork are left. -/
def SameKinds (f : Fork) (m : Nat) : Prop :=
  ∀ c d, f.Shared c d → f.bar.length + m ≤ c.rest.length → d.kind = c.kind

theorem sameKinds_before (f : Fork) : f.SameKinds 1 := by
  intro c d hd hlen
  rcases hd.cases with ⟨_, _, rfl⟩ | ⟨hbar, _⟩ | ⟨_, _, _, _, rfl, rfl, _⟩
  · rfl
  · rw [hbar] at hlen
    omega
  · rfl

theorem sameKinds_of_bar (f : Fork) (hbar : Cursor.kind ⟨0, f.bar⟩ = Cursor.kind ⟨0, f.other⟩) :
    f.SameKinds 0 := by
  intro c d hd _
  cases hd with
  | intro index front =>
    cases front with
    | nil => exact hbar.symm
    | cons t front => rfl

theorem atRuleStart_iff (c : Cursor) : c.atRuleStart = true ↔
    c.kind = .dollar ∧ c.next.kind = .identifier ∧ c.next.next.kind = .define := by
  have hkind : c.atRuleStart = true ↔
      c.kindAt 0 = .dollar ∧ c.kindAt 1 = .identifier ∧ c.kindAt 2 = .define := by
    simp only [Cursor.atRuleStart, Bool.and_eq_true, decide_eq_true_eq, and_assoc]
  rw [hkind]
  refine and_congr_right fun hk => ?_
  have hne : c.kind ≠ .endOfText := by
    rw [Cursor.kind, hk]
    decide
  rw [Seam.kindAt_succ c hne 0, Seam.kindAt_succ c hne 1]
  refine and_congr_right fun hk' => ?_
  have hne' : c.next.kind ≠ .endOfText := by
    rw [Cursor.kind, hk']
    decide
  rw [Seam.kindAt_succ c.next hne' 0]
  exact Iff.rfl

theorem Shared.kind_iff (h : f.Shared c d) (kind : TokenKind) (hpipe : kind ≠ .pipe)
    (hbreak : kind ≠ .newline) : d.kind = kind ↔ c.kind = kind := by
  refine ⟨h.kind_of kind hbreak, fun hk => ?_⟩
  rw [h.kind (by rw [hk]; exact hpipe), hk]

theorem Shared.atRuleStart (h : f.Shared c d) : d.atRuleStart = c.atRuleStart := by
  rw [Bool.eq_iff_iff, atRuleStart_iff, atRuleStart_iff, h.kind_iff .dollar nofun nofun]
  refine and_congr_right fun hk => ?_
  have hnext := h.step (by rw [hk]; nofun)
  rw [hnext.kind_iff .identifier nofun nofun]
  refine and_congr_right fun hk' => ?_
  exact (hnext.step (by rw [hk']; nofun)).kind_iff .define nofun nofun

theorem atElement_shared (hm : f.SameKinds m) (h : f.Shared c d)
    (hlen : f.bar.length + m ≤ c.rest.length) : Parser.atElement d = Parser.atElement c := by
  unfold Parser.atElement
  rw [hm c d h hlen, h.atRuleStart]

theorem keeps_finishAlternative (elements : List Node) (w : Float) :
    f.Keeps m (c.rest.length + 1) (Parser.finishAlternative elements w)
      (Parser.finishAlternative elements w) c := by
  unfold Parser.finishAlternative
  split
  · exact keeps_fail _
  · exact keeps_pure _ (Nat.lt_succ_self _)

theorem kind_of_atElement (c : Cursor) (h : Parser.atElement c = true) : c.kind ≠ .endOfText := by
  intro hk
  unfold Parser.atElement at h
  rw [hk] at h
  cases h

theorem keeps_elements (hi : f.Kept m inner outer) (hm : f.SameKinds m) (c : Cursor) :
    f.Keeps m (c.rest.length + 1) (Parser.repeatWhile Parser.atElement (Parser.element inner))
      (Parser.repeatWhile Parser.atElement (Parser.element outer)) c := by
  apply keeps_repeatWhile
  · intro c d hd hlen
    exact atElement_shared hm hd hlen
  · exact kind_of_atElement
  · intro c hgoes
    exact keeps_element hi (kind_of_atElement c hgoes)

theorem keeps_finishing (elements : List Node) :
    f.Keeps m (c.rest.length + 1)
      (Parser.accept .doubleColon >>= fun weighted =>
        if weighted then Parser.weight >>= Parser.finishAlternative elements
        else pure 1 >>= Parser.finishAlternative elements)
      (Parser.accept .doubleColon >>= fun weighted =>
        if weighted then Parser.weight >>= Parser.finishAlternative elements
        else pure 1 >>= Parser.finishAlternative elements) c := by
  apply keeps_bind (keeps_accept .doubleColon nofun)
  intro weighted c₂ hlen₂
  split
  · apply keeps_bind keeps_weight
    intro w c₃ hlen₃
    exact keeps_mono (keeps_finishAlternative elements w) (by omega)
  · exact keeps_mono (keeps_finishAlternative elements 1) (by omega)

theorem keeps_alternative (hi : f.Kept m inner outer) (hm : f.SameKinds m) (c : Cursor) :
    f.Keeps m (c.rest.length + 1) (Parser.alternative inner) (Parser.alternative outer) c := by
  rw [Parser.alternative_eq, Parser.alternative_eq]
  apply keeps_bind (keeps_elements hi hm c)
  intro elements c₁ hlen₁
  exact keeps_mono (keeps_finishing elements) (by omega)

theorem keeps_rule (hi : f.Kept m inner outer) (hm : f.SameKinds m) (c : Cursor) :
    f.Keeps m c.rest.length (Parser.rule inner) (Parser.rule outer) c := by
  apply keeps_bind (keeps_expect .dollar _ nofun)
  intro _ c₁ hlen₁
  apply keeps_bind (keeps_expect .identifier _ nofun)
  intro name c₂ hlen₂
  apply keeps_bind (keeps_expect .define _ nofun)
  intro _ c₃ hlen₃
  apply keeps_bind (keeps_alternative hi hm c₃)
  intro first c₄ hlen₄
  apply keeps_bind (keeps_repeatWhile ?_ ?_ ?_ c₄)
  · intro others c₅ hlen₅
    exact keeps_pure _ (by omega)
  · intro c d hd hlen
    rw [hm c d hd hlen]
  · intro c hgoes
    rw [of_decide_eq_true hgoes]
    nofun
  · intro c hgoes
    apply keeps_bind (keeps_advance (by rw [of_decide_eq_true hgoes]; nofun))
    intro _ c' hlen'
    exact keeps_mono (keeps_alternative hi hm c') (by omega)

end Fork

end ProseGrammar
