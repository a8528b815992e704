import ProseGrammar.Proofs.Grammar.Bars
import ProseGrammar.Proofs.Grammar.Placeless
import ProseGrammar.Proofs.Token.Cuts

/-!
# Line breaks next to a bar

A bar that separates two alternatives of a rule may stand at the end of a line, at the start of one
or on a line of its own: line breaks at either side of it are read as elements of the alternatives
there, and trimmed. An alternative that ends in a weight has no elements behind it, so in front of
the bar behind a weight no line break may stand.
-/

namespace ProseGrammar

namespace Parser

variable {inner : Inner} {c d e b : Cursor}

/-! ### Behind the bar -/

theorem trimBreaks_lineBreak (elements : List Node) :
    trimBreaks (.lineBreak :: elements) = trimBreaks elements := by
  unfold trimBreaks
  rw [List.reverse_cons, List.dropWhile_append]
  split
  next hnone =>
    rw [List.isEmpty_iff.mp hnone]
    rfl
  next => rw [List.reverse_append]; rfl

theorem repeatFrom_lineBreak (inner : Inner) (index : Nat) (t u : Token) (rest bound : List Token)
    (ht : t.kind = .newline) :
    repeatFrom atElement (element inner) (u :: bound) ⟨index, t :: rest⟩ = do
      let others ← repeatFrom atElement (element inner) bound ⟨index + 1, rest⟩
      return (.lineBreak :: others.1, others.2) := by
  obtain ⟨kind, value, p⟩ := t
  obtain rfl : kind = .newline := ht
  have hgo : atElement ⟨index, ⟨.newline, value, p⟩ :: rest⟩ = true := rfl
  rw [repeatFrom_cons, if_pos hgo]
  rfl

/-- A line break in front of an alternative is trimmed. -/
theorem alternative_lineBreak (inner : Inner) (index : Nat) (t : Token) (rest : List Token)
    (ht : t.kind = .newline) :
    alternative inner ⟨index, t :: rest⟩ = alternative inner ⟨index + 1, rest⟩ := by
  have helements : repeatWhile atElement (element inner) ⟨index, t :: rest⟩ = do
      let others ← repeatWhile atElement (element inner) ⟨index + 1, rest⟩
      return (.lineBreak :: others.1, others.2) := repeatFrom_lineBreak inner index t t rest rest ht
  rw [alternative_eq]
  show (repeatWhile atElement (element inner) ⟨index, t :: rest⟩ >>= _) =
    (repeatWhile atElement (element inner) ⟨index + 1, rest⟩ >>= _)
  rw [helements]
  cases repeatWhile atElement (element inner) ⟨index + 1, rest⟩ with
  | error fault => rfl
  | ok read =>
    have hfinish : finishAlternative (.lineBreak :: read.1) = finishAlternative read.1 := by
      funext w
      unfold finishAlternative
      rw [trimBreaks_lineBreak]
    dsimp only [bind, Except.bind, pure, Except.pure]
    rw [hfinish]

theorem alternative_breaks (inner : Inner) (index : Nat) (breaks rest : List Token)
    (hbreaks : ∀ t ∈ breaks, t.kind = .newline) :
    alternative inner ⟨index, breaks ++ rest⟩ =
      alternative inner ⟨index + breaks.length, rest⟩ := by
  induction breaks generalizing index with
  | nil => rfl
  | cons t breaks ih =>
    obtain ⟨ht, hrest⟩ := List.forall_mem_cons.mp hbreaks
    rw [List.cons_append, alternative_lineBreak inner index t _ ht, ih _ hrest, List.length_cons,
      Nat.add_right_comm, Nat.add_assoc]

theorem alternatives_breaks {index : Nat} {breaks rest : List Token} {as : List Alternative}
    (hbreaks : ∀ t ∈ breaks, t.kind = .newline)
    (h : Alternatives inner ⟨index + breaks.length, rest⟩ as e) :
    Alternatives inner ⟨index, breaks ++ rest⟩ as e := by
  have hsame := alternative_breaks inner index breaks rest hbreaks
  cases h with
  | last h hk => exact .last (hsame.trans h) hk
  | more h hk rest => exact .more (hsame.trans h) hk rest

/-- Alternatives are read in the same way side by side, up to the end of the first list. -/
theorem alternatives_past {s : Seam} (hi : ∀ n, s.Inners n inner inner)
    {as : List Alternative} (h : Alternatives inner c as e) (hcd : s.Beside c d) :
    ∃ e', Alternatives inner d as e' ∧ s.Past e e' := by
  have hread : ∀ {c d e : Cursor} {a : Alternative}, s.Beside c d → alternative inner c = .ok (a, e) →
      ∃ e', alternative inner d = .ok (a, e') ∧ s.Past e e' := by
    intro c d e a hcd h
    have hboth := Seam.outcomes_alternative (hi c.rest.length) hcd (Nat.le_succ _)
    rw [h] at hboth
    generalize alternative inner d = y at hboth ⊢
    cases hboth with
    | @ok x y hxy =>
      obtain ⟨a', e'⟩ := y
      obtain ⟨rfl, hpast, _⟩ := hxy
      exact ⟨e', rfl, hpast⟩
  induction h generalizing d with
  | last h hk =>
    obtain ⟨e', h', hpast⟩ := hread hcd h
    exact ⟨e', .last h' fun hk' => hk ((hpast.kind_iff .pipe nofun nofun nofun).mp hk'), hpast⟩
  | more h hk _ ih =>
    obtain ⟨e', h', hpast⟩ := hread hcd h
    have hk' := (hpast.kind_iff .pipe nofun nofun nofun).mpr hk
    rcases hpast with hbeside | ⟨_, hend, _⟩
    · obtain ⟨e'', hrest, hpast'⟩ := ih (hbeside.next (by rw [hk]; nofun))
      exact ⟨e'', .more h' hk' hrest, hpast'⟩
    · exact absurd (hk.symm.trans hend) nofun

theorem rules_past {s : Seam} (hi : ∀ n, s.Inners n inner inner)
    (hend : Cursor.kind ⟨0, s.start⟩ = .endOfText) {rs : List Rule} (h : Rules inner c rs)
    (hcd : s.Past c d) : Rules inner d rs := by
  induction h generalizing d with
  | @nil c hk =>
    apply Rules.nil
    obtain ⟨_, ⟨hk', _⟩ | ⟨_, index, hd⟩⟩ := hcd.skipBreaks
    · exact absurd hk hk'
    · rw [hd]
      exact hend
  | @cons c e r rs h _ ih =>
    have hdollar := kind_of_atRuleStart _ (atRuleStart_of_rule inner _ _ _ h)
    obtain ⟨_, ⟨_, hbeside⟩ | ⟨hk, _⟩⟩ := hcd.skipBreaks
    · have hboth := Seam.outcomes_rule (hi c.skipBreaks.rest.length) hbeside (Nat.le_succ _)
      rw [h] at hboth
      cases hrule : rule inner d.skipBreaks with
      | error fault =>
        rw [hrule] at hboth
        cases hboth
      | ok read =>
        rw [hrule] at hboth
        obtain ⟨r', e'⟩ := read
        cases hboth with
        | ok hxy =>
          obtain ⟨rfl, hpast, _⟩ := hxy
          exact .cons hrule (ih hpast)
    · exact absurd (hdollar.symm.trans hk) nofun

/-! ### In front of the bar -/

/-- A fork at a bar: in the second list line breaks stand in front of it. -/
structure Broken (f : Fork) (breaks start : List Token) : Prop where
  bar : Cursor.kind ⟨0, f.bar⟩ = .pipe
  other : f.other = breaks ++ start
  onlyBreaks : ∀ t ∈ breaks, t.kind = .newline
  start : Cursor.kind ⟨0, start⟩ = .pipe

variable {f : Fork} {breaks start : List Token}

theorem rest_eq (c : Cursor) (hk : c.kind ≠ .endOfText) :
    c.rest = c.current :: c.next.rest ∧ c.current.kind = c.kind := by
  obtain ⟨index, ts⟩ := c
  cases ts with
  | nil => exact absurd rfl hk
  | cons t ts =>
    rw [Cursor.next, if_neg hk]
    exact ⟨rfl, rfl⟩

theorem weight_ok (c e : Cursor) (w : Float) (h : weight c = .ok (w, e)) :
    c.kind = .number ∧ e = c.next := by
  unfold weight at h
  rw [Fork.get_apply] at h
  split at h
  next => cases h
  next =>
    split at h
    next hk =>
      have hpositive : (if c.current.float ≤ 0 then
          (throw (.syntactic .weightNotPositive c.current.position) : Parser Float)
        else pure c.current.float) c.next = .ok (w, e) := h
      split at hpositive <;> cases hpositive
      exact ⟨hk, rfl⟩
    next => cases h

/-- Behind the elements of an alternative stands nothing or a weight. -/
theorem finishing_ok (elements : List Node) (c e : Cursor) (a : Alternative)
    (h : (accept .doubleColon >>= fun weighted =>
      if weighted then weight >>= finishAlternative elements
      else pure 1 >>= finishAlternative elements) c = .ok (a, e)) :
    e = c ∧ finishAlternative elements 1 c = .ok (a, c) ∨
      ∃ t u, t.kind = .doubleColon ∧ c.rest = t :: u :: e.rest := by
  have hstay : ∀ (w : Float) (c : Cursor), finishAlternative elements w c = .ok (a, e) → e = c := by
    intro w c h
    unfold finishAlternative at h
    split at h <;> cases h
    rfl
  by_cases hk : c.kind = .doubleColon
  · right
    obtain ⟨hrest, hkind⟩ := rest_eq c (by rw [hk]; nofun)
    obtain ⟨⟨weighted, c₁⟩, haccept, h⟩ := (bind_ok_iff _ _ _).mp h
    have htaken : accept .doubleColon c = .ok (true, c.next) :=
      congrArg (fun p : Parser Bool => p c) (if_pos hk)
    rw [htaken] at haccept
    cases haccept
    obtain ⟨⟨w, c₂⟩, hweight, h⟩ := (bind_ok_iff _ _ _).mp h
    obtain rfl : e = c₂ := hstay w c₂ h
    obtain ⟨hnumber, rfl⟩ := weight_ok c.next e w hweight
    obtain ⟨hrest', _⟩ := rest_eq c.next (by rw [hnumber]; nofun)
    refine ⟨c.current, c.next.current, hkind.trans hk, ?_⟩
    rw [hrest, hrest']
  · left
    rw [Seam.accept_other _ _ c hk] at h
    obtain rfl : e = c := hstay 1 c h
    exact ⟨rfl, h⟩

theorem elements_suffix (hi : nothing.Kept 0 inner inner) (bound : List Token) (c e : Cursor)
    (elements : List Node) (hb : c.rest.length ≤ bound.length)
    (h : repeatFrom atElement (element inner) bound c = .ok (elements, e)) : e.rest <:+ c.rest := by
  have hitem : ∀ c, atElement c = true →
      nothing.Keeps 0 c.rest.length (element inner) (element inner) c := by
    intro c hgoes
    exact Fork.keeps_element hi (Fork.kind_of_atElement c hgoes)
  refine (Fork.keeps_repeatFrom ?_ Fork.kind_of_atElement hitem bound c hb elements e h).1
  intro c d hd hlen
  exact Fork.atElement_shared sameKinds_nothing hd hlen

theorem atElement_of_pipe (h : c.kind = .pipe) : atElement c = false := by
  unfold atElement
  rw [h]
  rfl

theorem here_or_before (h : f.Shared c d) :
    c.rest = f.bar ∧ d.rest = f.other ∨ f.bar.length + 1 ≤ c.rest.length := by
  obtain ⟨index, front⟩ := h
  cases front with
  | nil => exact .inl ⟨rfl, rfl⟩
  | cons t front =>
    right
    rw [List.length_append, List.length_cons]
    omega

/-- The line breaks in front of a bar are read as elements, behind those that are read before. -/
theorem elements_broken (hf : Broken f breaks start) (hi : f.Kept 0 inner inner)
    (hin : nothing.Kept 0 inner inner) (bound bound' : List Token) (c d b : Cursor)
    (elements : List Node) (hcd : f.Shared c d) (hend : b.rest = f.bar)
    (hb : c.rest.length ≤ bound.length) (hb' : d.rest.length ≤ bound'.length)
    (h : repeatFrom atElement (element inner) bound c = .ok (elements, b)) :
    ∃ index, repeatFrom atElement (element inner) bound' d =
      .ok (elements ++ List.replicate breaks.length .lineBreak, ⟨index, start⟩) := by
  have hpos : 0 < f.bar.length := Fork.pos_of_kind (c := ⟨0, f.bar⟩) (by rw [hf.bar]; nofun)
  induction bound generalizing bound' c d elements with
  | nil =>
    rw [List.length_nil] at hb
    rcases here_or_before hcd with ⟨hc, _⟩ | hlen
    · rw [hc] at hb
      omega
    · omega
  | cons t bound ih =>
    rw [List.length_cons] at hb
    rcases here_or_before hcd with ⟨hc, hd⟩ | hlen
    · obtain ⟨index, _⟩ := c
      obtain ⟨index', _⟩ := d
      obtain rfl : _ = f.bar := hc
      obtain rfl : _ = f.other := hd
      rw [repeatFrom_stop (atElement_of_pipe (c := ⟨index, f.bar⟩) hf.bar)] at h
      cases h
      have hstop : ∀ index, atElement ⟨index, start⟩ = false :=
        fun index => atElement_of_pipe (c := ⟨index, start⟩) hf.start
      have hbreaks := Seam.repeatFrom_breaks inner breaks start hf.onlyBreaks hstop bound' index'
        (by rw [← hf.other]; exact hb')
      rw [List.nil_append, hf.other, hbreaks]
      exact ⟨_, rfl⟩
    -- in front of the bar both lists have the same next token
    · have hgo := Fork.atElement_shared f.sameKinds_before hcd hlen
      rcases repeatFrom_cases h with
        ⟨-, rfl, rfl⟩ | ⟨first, c₁, others, hgoes, hfirst, hothers, rfl⟩
      · rw [hend] at hlen
        omega
      · obtain ⟨_, hless, hsame⟩ :=
          Fork.keeps_element hi (Fork.kind_of_atElement c hgoes) first c₁ hfirst
        have hfork := (elements_suffix hin bound c₁ b others (by omega) hothers).length_le
        rw [hend] at hfork
        obtain ⟨d₁, hfirst', hcd₁⟩ := hsame d hcd hfork
        have hlen' := hcd.length
        have hlen₁ := hcd₁.length
        cases bound' with
        | nil =>
          rw [List.length_nil] at hb'
          omega
        | cons t' bound' =>
          rw [List.length_cons] at hb'
          obtain ⟨index, hmore⟩ := ih bound' c₁ d₁ others hcd₁ (by omega) (by omega) hothers
          exact ⟨index, repeatFrom_next (hgo.trans hgoes) hfirst' hmore t'⟩

/-- An alternative that ends at a bar and has no weight ends at the bar behind line breaks, too. -/
theorem alternative_broken (hf : Broken f breaks start) (hi : f.Kept 0 inner inner)
    (hin : nothing.Kept 0 inner inner) (hcd : f.Shared c d) (hend : b.rest = f.bar)
    (hplain : breaks = [] ∨ ∀ t u, t.kind = .doubleColon → ¬(t :: u :: f.bar) <:+ c.rest)
    {a : Alternative} (h : alternative inner c = .ok (a, b)) :
    ∃ index, alternative inner d = .ok (a, ⟨index, start⟩) := by
  -- without line breaks the lists read alike; else no weight stands in front of the bar
  rcases hplain with rfl | hplain
  · have hother : f.other = start := hf.other
    have hm := f.sameKinds_of_bar (by rw [hother, hf.bar, hf.start])
    obtain ⟨_, _, hsame⟩ := Fork.keeps_alternative hi hm c a b h
    obtain ⟨e, he, hbe⟩ := hsame d hcd (by rw [hend]; exact Nat.le_refl _)
    obtain ⟨index, front⟩ := hbe
    obtain rfl : front = [] := List.append_left_eq_self.mp hend
    rw [List.nil_append, hother] at he
    exact ⟨index, he⟩
  · rw [alternative_eq] at h ⊢
    obtain ⟨⟨elements, c₁⟩, helements, h⟩ := (bind_ok_iff _ _ _).mp h
    rcases finishing_ok elements c₁ b a h with ⟨rfl, hfinish⟩ | ⟨t, u, ht, hrest⟩
    · obtain ⟨index, hmore⟩ := elements_broken hf hi hin c.rest d.rest c d b elements hcd hend
        (Nat.le_refl _) (Nat.le_refl _) helements
      have hfinal : finishAlternative (elements ++ List.replicate breaks.length .lineBreak) 1
          ⟨index, start⟩ = .ok (a, ⟨index, start⟩) := by
        unfold finishAlternative at hfinish ⊢
        rw [Seam.trimBreaks_replicate]
        split at hfinish
        next => cases hfinish
        next hsome =>
          cases hfinish
          rw [if_neg hsome]
          rfl
      have hpipe : Cursor.kind ⟨index, start⟩ = .pipe := hf.start
      have hunweighted := Seam.accept_other .doubleColon (fun weighted =>
        if weighted then weight >>= finishAlternative (elements ++ .replicate breaks.length .lineBreak)
        else pure 1 >>= finishAlternative (elements ++ .replicate breaks.length .lineBreak))
        ⟨index, start⟩ (by rw [hpipe]; nofun)
      exact ⟨index, (bind_ok_iff _ _ _).mpr ⟨_, hmore, hunweighted.trans hfinal⟩⟩
    · have hsuffix := elements_suffix hin c.rest c c₁ elements (Nat.le_refl _) helements
      rw [hrest, hend] at hsuffix
      exact absurd hsuffix (hplain t u ht)

/-! ### Rules on the way to the bar -/

theorem barWithin_suffix (hin : nothing.Kept 0 inner inner) (h : BarWithin inner c b) :
    b.rest <:+ c.rest ∧ b.kind = .pipe := by
  induction h with
  | here h hk => exact ⟨(alternative_suffix hin h).1, hk⟩
  | @later c d e a h hk _ ih =>
    have hnext := (Fork.length_next e).1
    exact ⟨(ih.1.trans hnext).trans (alternative_suffix hin h).1, ih.2⟩

theorem barBetween_suffix (hin : nothing.Kept 0 inner inner) (h : BarBetween inner c b) :
    b.rest <:+ c.rest ∧ b.rest.length < c.rest.length ∧ b.kind = .pipe := by
  have hskip : ∀ c : Cursor, c.skipBreaks.rest <:+ c.rest := fun c => List.drop_suffix _ _
  induction h with
  | @here c d hstart h =>
    obtain ⟨hsuffix, hk⟩ := barWithin_suffix hin h
    have hdollar := kind_of_atRuleStart _ hstart
    obtain ⟨hnext, _, hless⟩ := Fork.length_next c.skipBreaks
    have hnext₁ := (Fork.length_next c.skipBreaks.next).1
    have hnext₂ := (Fork.length_next c.skipBreaks.next.next).1
    have hbehind := (hsuffix.trans hnext₂).trans hnext₁
    have hshort := hless (by rw [hdollar]; nofun)
    refine ⟨(hbehind.trans hnext).trans (hskip c), ?_, hk⟩
    have hlen := hbehind.length_le
    have hlen' := (hskip c).length_le
    omega
  | @later c d e r h _ ih =>
    obtain ⟨hsuffix, hlen, hk⟩ := ih
    obtain ⟨_, hrule, _⟩ := of_keeps_nothing (Fork.keeps_rule hin sameKinds_nothing _) h
    have hbehind := hrule.trans (hskip c)
    have hlen' := hbehind.length_le
    exact ⟨hsuffix.trans hbehind, by omega, hk⟩

/-- In front of a bar, line breaks are skipped in both lists. -/
theorem shared_skipBreaks (hf : Broken f breaks start) (hcd : f.Shared c d)
    (hk : c.skipBreaks.kind ≠ .pipe) : f.Shared c.skipBreaks d.skipBreaks := by
  obtain ⟨index, front⟩ := hcd
  induction front generalizing index with
  | nil =>
    have hpipe : Cursor.kind ⟨index, f.bar⟩ = .pipe := hf.bar
    refine absurd ?_ hk
    rw [List.nil_append]
    generalize f.bar = ts at hpipe
    cases ts with
    | nil => cases hpipe
    | cons t ts =>
      have ht : t.kind = .pipe := hpipe
      rw [Seam.skipBreaks_cons, if_neg (by rw [ht]; nofun)]
      exact hpipe
  | cons t front ih =>
    rw [List.cons_append, Seam.skipBreaks_cons] at hk ⊢
    rw [List.cons_append, Seam.skipBreaks_cons]
    split
    next ht =>
      rw [if_pos ht] at hk
      exact ih (index + 1) hk
    next => exact .intro index (t :: front)

theorem Alternatives.behind {as : List Alternative} {a : Alternative} (has : Alternatives inner c as e)
    (h : alternative inner c = .ok (a, d)) (hk : d.kind = .pipe) :
    ∃ others, as = a :: others ∧ Alternatives inner d.next others e := by
  cases has with
  | last h' hk' =>
    rw [h] at h'
    cases h'
    exact absurd hk hk'
  | more h' _ rest =>
    rw [h] at h'
    cases h'
    exact ⟨_, rfl, rest⟩

theorem alternatives_broken {s : Seam} (hf : Broken f breaks start)
    (hi : ∀ (f : Fork) (m : Nat), f.Kept m inner inner)
    (hbehind : ∀ index as e, Alternatives inner b.next as e →
      ∃ e', Alternatives inner (Cursor.next ⟨index, start⟩) as e' ∧ s.Past e e')
    (hend : b.rest = f.bar) (h : BarWithin inner c b) (hcd : f.Shared c d)
    (hplain : breaks = [] ∨ ∀ t u, t.kind = .doubleColon → ¬(t :: u :: f.bar) <:+ c.rest)
    (as : List Alternative) (has : Alternatives inner c as e) :
    ∃ e', Alternatives inner d as e' ∧ s.Past e e' := by
  induction h generalizing d as with
  | @here c b a h hk =>
    obtain ⟨others, rfl, hothers⟩ := has.behind h hk
    obtain ⟨index, hbroken⟩ := alternative_broken hf (hi f 0) (hi nothing 0) hcd hend hplain h
    obtain ⟨e', hrest, hpast⟩ := hbehind index others e hothers
    exact ⟨e', .more hbroken hf.start hrest, hpast⟩
  | @later c b c₁ a h hk hwithin ih =>
    obtain ⟨others, rfl, hothers⟩ := has.behind h hk
    obtain ⟨hsuffix, _⟩ := barWithin_suffix (hi nothing 0) hwithin
    have hlen := hsuffix.length_le
    rw [hend] at hlen
    obtain ⟨hnext, _, hless⟩ := Fork.length_next c₁
    have hshort := hless (by rw [hk]; nofun)
    obtain ⟨hbehind', _, hsame⟩ := Fork.keeps_alternative (hi f 1) f.sameKinds_before c a c₁ h
    obtain ⟨d₁, h', hcd₁⟩ := hsame d hcd (by omega)
    obtain ⟨hkind, _, hnext'⟩ := hcd₁.next hlen
    obtain ⟨e', hrest, hpast⟩ := ih hbehind hend hnext'
      (hplain.imp_right fun hplain t u ht hc => hplain t u ht ((hc.trans hnext).trans hbehind'))
      others hothers
    exact ⟨e', .more h' (hkind.trans hk) hrest, hpast⟩

/-- Rules with a bar between two alternatives are read in the same way with line breaks at the bar. -/
theorem rules_broken {s : Seam} (hf : Broken f breaks start)
    (hi : ∀ (f : Fork) (m : Nat), f.Kept m inner inner) (hs : ∀ n, s.Inners n inner inner)
    (hstop : Cursor.kind ⟨0, s.start⟩ = .endOfText)
    (hbehind : ∀ index as e, Alternatives inner b.next as e →
      ∃ e', Alternatives inner (Cursor.next ⟨index, start⟩) as e' ∧ s.Past e e')
    (hend : b.rest = f.bar) (h : BarBetween inner c b) (hcd : f.Shared c d)
    (hplain : breaks = [] ∨ ∀ t u, t.kind = .doubleColon → ¬(t :: u :: f.bar) <:+ c.rest)
    (rs : List Rule) (hrs : Rules inner c rs) : Rules inner d rs := by
  have hin := hi nothing 0
  have hskip : ∀ c : Cursor, c.skipBreaks.rest <:+ c.rest := fun c => List.drop_suffix _ _
  -- the rules in front of the one with the bar are read alike, those behind it past the seam
  induction h generalizing d rs with
  | @here c b hstart h =>
    have hdollar := kind_of_atRuleStart _ hstart
    cases hrs with
    | nil hk => exact absurd (hdollar.symm.trans hk) nofun
    | @cons _ e r rs hrule hrest =>
      obtain ⟨_, hname, halternatives⟩ := (rule_iff hin _ _ _).mp hrule
      obtain ⟨hk, hk₁, hk₂⟩ := (Fork.atRuleStart_iff _).mp hstart
      have hskipped := shared_skipBreaks hf hcd (by rw [hk]; nofun)
      have hnext := hskipped.step (by rw [hk]; nofun)
      have hnext₁ := hnext.step (by rw [hk₁]; nofun)
      have hnext₂ := hnext₁.step (by rw [hk₂]; nofun)
      have hsuffix : c.skipBreaks.next.next.next.rest <:+ c.rest :=
        ((Fork.length_next _).1.trans ((Fork.length_next _).1.trans (Fork.length_next _).1)).trans
          (hskip c)
      obtain ⟨e', hbroken, hpast⟩ := alternatives_broken hf hi hbehind hend h hnext₂
        (hplain.imp_right fun hplain t u ht hc => hplain t u ht (hc.trans hsuffix)) _ halternatives
      refine .cons ((rule_iff hin _ _ _).mpr ⟨hskipped.atRuleStart.trans hstart, ?_, hbroken⟩)
        (rules_past hs hstop hrest hpast)
      rw [hname, hnext.current (by rw [hk₁]; nofun)]
  | @later c b c₁ r h hbetween ih =>
    have hdollar := kind_of_atRuleStart _ (atRuleStart_of_rule inner _ _ _ h)
    cases hrs with
    | nil hk => exact absurd (hdollar.symm.trans hk) nofun
    | @cons _ _ _ rs hrule hrest =>
      rw [h] at hrule
      cases hrule
      have hskipped := shared_skipBreaks hf hcd (by rw [hdollar]; nofun)
      obtain ⟨_, hlen, _⟩ := barBetween_suffix hin hbetween
      rw [hend] at hlen
      obtain ⟨hsuffix, _, hsame⟩ := Fork.keeps_rule (hi f 1) f.sameKinds_before _ r c₁ h
      obtain ⟨d₁, h', hcd₁⟩ := hsame _ hskipped hlen
      exact .cons h' (ih hbehind hend hcd₁ (hplain.imp_right fun hplain t u ht hc =>
        hplain t u ht ((hc.trans hsuffix).trans (hskip c))) rs hrest)

/-! ### The same bar for another way to name targets -/

variable {outer : Inner}

theorem barWithin_of_kept (hi : nothing.Kept 0 inner outer) (h : BarWithin outer c b)
    {as : List Alternative} (has : Alternatives inner c as e) : BarWithin inner c b := by
  have hread : ∀ {c e : Cursor} {a : Alternative}, alternative inner c = .ok (a, e) →
      alternative outer c = .ok (a, e) :=
    fun h => (of_keeps_nothing (Fork.keeps_alternative hi sameKinds_nothing _) h).1
  induction h generalizing as with
  | here h hk =>
    cases has with
    | last h' _ =>
      rw [hread h'] at h
      cases h
      exact .here h' hk
    | more h' _ _ =>
      rw [hread h'] at h
      cases h
      exact .here h' hk
  | later h hk _ ih =>
    cases has with
    | last h' hk' =>
      rw [hread h'] at h
      cases h
      exact absurd hk hk'
    | more h' _ hrest =>
      rw [hread h'] at h
      cases h
      exact .later h' hk (ih hrest)

theorem barBetween_of_kept (hi : nothing.Kept 0 inner outer) (hin : nothing.Kept 0 inner inner)
    (h : BarBetween outer c b) {rs : List Rule} (hrs : Rules inner c rs) : BarBetween inner c b := by
  induction h generalizing rs with
  | here hstart h =>
    cases hrs with
    | nil hk => exact absurd ((kind_of_atRuleStart _ hstart).symm.trans hk) nofun
    | cons hrule _ =>
      obtain ⟨_, _, halternatives⟩ := (rule_iff hin _ _ _).mp hrule
      exact .here hstart (barWithin_of_kept hi h halternatives)
  | later h _ ih =>
    cases hrs with
    | nil hk =>
      have hdollar := kind_of_atRuleStart _ (atRuleStart_of_rule outer _ _ _ h)
      exact absurd (hdollar.symm.trans hk) nofun
    | cons hrule hrest =>
      rw [(of_keeps_nothing (Fork.keeps_rule hi sameKinds_nothing _) hrule).1] at h
      cases h
      exact .later hrule (ih hrest)

end Parser

/-! ### Texts -/

open ProseGrammar.Parser

/-- The parsers that read no value that is assigned to something else than a variable. -/
def Parser.Inner.named : Inner :=
  .levelBy Inner.refused Reading.nestingLimit

theorem kept_named (f : Fork) (m : Nat) : f.Kept m Inner.named Inner.named :=
  Fork.kept_levelBy _ _ (fun _ _ h => h) _

theorem ofSource_of_rules (source : String) (tokens : List Token) (rs : List Rule)
    (hscan : Token.scan source = .ok tokens) (hne : rs ≠ [])
    (h : Rules Inner.named ⟨0, tokens⟩ rs) : Reading.ofSource source = ⟨rs, none⟩ := by
  have hreading : Reading.ofTokensBy Inner.refused Reading.nestingLimit tokens = ⟨rs, none⟩ :=
    (rulesFrom_iff (kept_named nothing 0) tokens ⟨0, tokens⟩ rs (Nat.le_refl _)).mpr h
  have hk : (Cursor.skipBreaks ⟨0, tokens⟩).kind ≠ .endOfText := by
    cases h with
    | nil => exact absurd rfl hne
    | cons hrule _ =>
      rw [kind_of_atRuleStart _ (atRuleStart_of_rule _ _ _ _ hrule)]
      nofun
  have hsame := ofTokensBy_of_refused Inner.anonymous Reading.nestingLimit tokens
    (endsOnce_of_scan source tokens hscan) hk (by rw [hreading])
  unfold Reading.ofSource
  rw [hscan]
  exact hsame.trans hreading

theorem rules_of_ofSource (source : String) (tokens : List Token) (rs : List Rule)
    (hscan : Token.scan source = .ok tokens) (hne : rs ≠ [])
    (hassigns : Reading.assignsToVariables source = true)
    (h : Reading.ofSource source = ⟨rs, none⟩) : Rules Inner.named ⟨0, tokens⟩ rs := by
  rw [Reading.assignsToVariables, hscan, Option.isNone_iff_eq_none] at hassigns
  rw [Reading.ofSource, hscan] at h
  have hrefused : Rules Inner.named ⟨0, tokens⟩
      (Reading.ofTokensBy Inner.refused Reading.nestingLimit tokens).rules := by
    refine (rulesFrom_iff (kept_named nothing 0) tokens ⟨0, tokens⟩ _ (Nat.le_refl _)).mp ?_
    exact congrArg (Reading.mk _) hassigns
  have hk : (Cursor.skipBreaks ⟨0, tokens⟩).kind ≠ .endOfText := by
    intro hk
    have hkept := Fork.kept_levelBy (f := nothing) (m := 0) Inner.anonymous Inner.anonymous
      (fun _ _ h => h) Reading.nestingLimit
    have hall := (rulesFrom_iff hkept tokens ⟨0, tokens⟩ rs (Nat.le_refl _)).mp h
    exact hne ((rules_of_end hk rs).mp hall)
  have hsame := ofTokensBy_of_refused Inner.anonymous Reading.nestingLimit tokens
    (endsOnce_of_scan source tokens hscan) hk hassigns
  have hrules : (Reading.ofTokensBy Inner.anonymous Reading.nestingLimit tokens).rules = rs :=
    congrArg Reading.rules h
  rwa [← hsame, hrules] at hrefused

/-- Whether a list of tokens ends with a weight. -/
def Token.endsInWeight (tokens : List Token) : Bool :=
  tokens.dropLast.getLast?.any fun t => t.kind = .doubleColon

/-- A bar in a text separates two alternatives of a rule: it is a token, and the reader of rules comes
to it behind an alternative. -/
structure Text.Separates (left right : String) (before after : List Token) (bar : Token) : Prop where
  tokens : Token.scan (left ++ "|" ++ right) = .ok (before ++ bar :: after)
  place : bar.position = Position.after ⟨1, 1⟩ left.toList
  between : BarBetween (.level Reading.nestingLimit) ⟨0, before ++ bar :: after⟩
    ⟨before.length, bar :: after⟩

def Text.breaks (n : Nat) : String :=
  .ofList (.replicate n '\n')

theorem not_suffix_of_plain (before : List Token) (hplain : Token.endsInWeight before = false)
    (bar : List Token) (t u : Token) (ht : t.kind = .doubleColon) :
    ¬(t :: u :: bar) <:+ before ++ bar := by
  rintro ⟨front, hfront⟩
  have hbefore : front ++ [t, u] = before := by
    refine List.append_cancel_right (?_ : _ ++ bar = _ ++ bar)
    rw [← hfront, List.append_assoc]
    rfl
  rw [← hbefore, Token.endsInWeight, List.dropLast_append_of_ne_nil (List.cons_ne_nil _ _),
    List.dropLast_cons_of_ne_nil (List.cons_ne_nil _ _), List.dropLast_singleton,
    List.getLast?_append, List.getLast?_singleton] at hplain
  simp [ht] at hplain

theorem endsOnce_of_bar (before after : List Token) (bar : Token) (hk : bar.kind ≠ .endOfText)
    (h : Token.EndsOnce (before ++ bar :: after)) : Token.EndsOnce after := by
  obtain ⟨body, e, hbody, he, hkinds⟩ := h
  rcases List.eq_nil_or_concat after with rfl | ⟨rest, e', rfl⟩
  · obtain ⟨-, hlast⟩ := List.append_inj' hbody rfl
    cases hlast
    exact absurd he hk
  · rw [List.concat_eq_append] at hbody ⊢
    have hassoc : before ++ bar :: (rest ++ [e']) = (before ++ bar :: rest) ++ [e'] := by
      rw [List.append_assoc, List.cons_append]
    obtain ⟨rfl, hlast⟩ := List.append_inj' (hassoc.symm.trans hbody) rfl
    cases hlast
    exact ⟨rest, e, rfl, he, fun t ht => hkinds t (List.mem_append_right _ (.tail _ ht))⟩

/-- Line breaks in front of a bar that separates two alternatives of a rule and behind it change
nothing, but for those between a weight and the bar behind it. -/
theorem grammar_of_breaks_at_bar (left right : String) (before after : List Token) (bar : Token)
    (g : Grammar) (j k : Nat)
    (h : (Reading.ofSource (left ++ "|" ++ right)).grammar = .ok g)
    (hassigns : Reading.assignsToVariables (left ++ "|" ++ right) = true)
    (hbar : Text.Separates left right before after bar)
    (hplain : j = 0 ∨ Token.endsInWeight before = false) :
    (Reading.ofSource (left ++ Text.breaks j ++ "|" ++ Text.breaks k ++ right)).grammar = .ok g := by
  obtain ⟨hnone, hne, rfl⟩ := reading_ok _ _ h
  obtain ⟨hscan, hplace, hbetween⟩ := hbar
  have htext : (left ++ "|" ++ right).toList = left.toList ++ '|' :: right.toList := by
    rw [String.toList_append, String.toList_append, List.append_assoc]
    rfl
  have hscan' := hscan
  rw [Token.scan, htext] at hscan'
  obtain ⟨hpipe, breaks, bar', breaks', after', hbroken, hlen, hbreaks, hpipe', hbreaks', haligned⟩ :=
    scanFrom_broken ⟨1, 1⟩ left.toList right.toList before after bar hscan' hplace j k
  have hwhole : Token.scan (left ++ Text.breaks j ++ "|" ++ Text.breaks k ++ right) =
      .ok (before ++ (breaks ++ bar' :: (breaks' ++ after'))) := by
    rw [← hbroken, Token.scan, Text.breaks, Text.breaks]
    simp only [String.toList_append, String.toList_ofList, List.append_assoc]
    rfl
  have hends : Token.EndsOnce after := endsOnce_of_bar before after bar (by rw [hpipe]; decide)
    (endsOnce_of_scan _ _ hscan)
  have hrules := rules_of_ofSource _ _ (Reading.ofSource (left ++ "|" ++ right)).rules hscan hne
    hassigns (congrArg (Reading.mk _) hnone)
  -- the two lists share what is in front of the bar, and what is behind it goes side by side
  let f : Fork := ⟨bar :: after, breaks ++ bar' :: (breaks' ++ after'), by
    right
    refine ⟨hpipe, ?_⟩
    cases breaks with
    | nil => exact .inl hpipe'
    | cons t breaks => exact .inr (hbreaks t List.mem_cons_self)⟩
  have hf : Broken f breaks (bar' :: (breaks' ++ after')) := ⟨hpipe, rfl, hbreaks, hpipe'⟩
  obtain ⟨body, e, rfl, he, hkinds⟩ := hends
  obtain ⟨e', he', halong⟩ := along_of_aligned body after' e he hkinds haligned
  let s := Seam.lowered e' he'
  have hs : ∀ n, s.Inners n Inner.named Inner.named := fun n =>
    Seam.inners_levelBy Inner.refused Inner.refused (fun _ _ _ => .error False.elim) _ n False.elim
  have hbehind : ∀ index as c, Alternatives Inner.named (Cursor.next ⟨before.length, f.bar⟩) as c →
      ∃ c', Alternatives Inner.named (Cursor.next ⟨index, bar' :: (breaks' ++ after')⟩) as c' ∧
        s.Past c c' := by
    intro index as c has
    have hnext : Cursor.next ⟨before.length, f.bar⟩ = ⟨before.length + 1, body ++ [e]⟩ :=
      if_neg (show bar.kind ≠ .endOfText by rw [hpipe]; decide)
    have hnext' : Cursor.next ⟨index, bar' :: (breaks' ++ after')⟩ = ⟨index + 1, breaks' ++ after'⟩ :=
      if_neg (show bar'.kind ≠ .endOfText by rw [hpipe']; decide)
    rw [hnext] at has
    obtain ⟨c', has', hpast⟩ := alternatives_past hs has
      (d := ⟨index + 1 + breaks'.length, after'⟩) ⟨False.elim, halong s rfl rfl fun _ _ => trivial⟩
    rw [hnext']
    exact ⟨c', alternatives_breaks hbreaks' has', hpast⟩
  have hbetween' : BarBetween Inner.named ⟨0, before ++ f.bar⟩ ⟨before.length, f.bar⟩ :=
    barBetween_of_kept (Fork.kept_levelBy _ _ (fun _ _ h => absurd h (by simp [Inner.refused])) _)
      (kept_named nothing 0) hbetween hrules
  have hplain' : breaks = [] ∨ ∀ t u : Token, t.kind = .doubleColon →
      ¬(t :: u :: f.bar) <:+ before ++ f.bar := by
    rcases hplain with rfl | hplain
    · exact .inl (List.length_eq_zero_iff.mp hlen)
    · exact .inr fun t u ht => not_suffix_of_plain before hplain f.bar t u ht
  have hnew : Rules Inner.named ⟨0, before ++ f.other⟩ _ :=
    rules_broken hf kept_named hs he' hbehind rfl hbetween' (.intro 0 before) hplain' _ hrules
  rw [ofSource_of_rules _ _ _ hwhole hne hnew, ← hnone]
  exact h

theorem ok_of_cursor {α : Type} (r : Except Fault (α × Cursor)) (e : Cursor)
    (h : r.toOption.map Prod.snd = some e) : ∃ a, r = .ok (a, e) := by
  cases r with
  | error fault => cases h
  | ok read =>
    obtain ⟨a, e'⟩ := read
    exact ⟨a, congrArg (fun e => Except.ok (a, e)) (Option.some.inj h)⟩

theorem grammar_of_breaks_at_greeting :
    ∃ g, (Reading.ofSource "$start := hi|you ::2").grammar = .ok g ∧
      (Reading.ofSource "$start := hi\n\n|\nyou ::2").grammar = .ok g := by
  obtain ⟨g, hg, _⟩ := grammar_of_keys (Reading.ofSource "$start := hi|you ::2").grammar
    ["start"] (by decide +kernel)
  have hassigns : Reading.assignsToVariables "$start := hi|you ::2" = true := by decide +kernel
  have hends : ∃ a, alternative (.level Reading.nestingLimit)
      ⟨3, [⟨.identifier, "hi", ⟨1, 11⟩⟩, ⟨.pipe, "|", ⟨1, 13⟩⟩, ⟨.identifier, "you", ⟨1, 14⟩⟩,
        ⟨.doubleColon, "::", ⟨1, 18⟩⟩, ⟨.number, "2", ⟨1, 20⟩⟩, ⟨.endOfText, "", ⟨1, 21⟩⟩]⟩ = .ok (a,
      ⟨4, [⟨.pipe, "|", ⟨1, 13⟩⟩, ⟨.identifier, "you", ⟨1, 14⟩⟩, ⟨.doubleColon, "::", ⟨1, 18⟩⟩,
        ⟨.number, "2", ⟨1, 20⟩⟩, ⟨.endOfText, "", ⟨1, 21⟩⟩]⟩) := ok_of_cursor _ _ (by decide +kernel)
  obtain ⟨a, ha⟩ := hends
  have hbar : Text.Separates "$start := hi" "you ::2"
      [⟨.dollar, "$", ⟨1, 1⟩⟩, ⟨.identifier, "start", ⟨1, 2⟩⟩, ⟨.define, ":=", ⟨1, 8⟩⟩,
        ⟨.identifier, "hi", ⟨1, 11⟩⟩]
      [⟨.identifier, "you", ⟨1, 14⟩⟩, ⟨.doubleColon, "::", ⟨1, 18⟩⟩, ⟨.number, "2", ⟨1, 20⟩⟩,
        ⟨.endOfText, "", ⟨1, 21⟩⟩] ⟨.pipe, "|", ⟨1, 13⟩⟩ :=
    ⟨by decide +kernel, by decide, .here (by decide) (.here ha rfl)⟩
  exact ⟨g, hg, grammar_of_breaks_at_bar "$start := hi" "you ::2" _ _ _ g 2 1 hg hassigns hbar
    (.inr (by decide))⟩

/-- A line break between a weight and the bar behind it ends the rule, and the bar starts none. -/
theorem fault_of_break_behind_weight :
    (∃ g, (Reading.ofSource "$start := a ::2| b").grammar = .ok g) ∧
      Reading.assignsToVariables "$start := a ::2| b" = true ∧
      (∃ before after bar, Text.Separates "$start := a ::2" " b" before after bar) ∧
      (Reading.ofSource "$start := a ::2\n| b").fault =
        some (.syntactic .expectedRuleStart ⟨2, 1⟩) := by
  obtain ⟨g, hg, _⟩ := grammar_of_keys (Reading.ofSource "$start := a ::2| b").grammar
    ["start"] (by decide +kernel)
  refine ⟨⟨g, hg⟩, by decide +kernel, ?_, by decide +kernel⟩
  have hends : ∃ a, alternative (.level Reading.nestingLimit)
      ⟨3, [⟨.identifier, "a", ⟨1, 11⟩⟩, ⟨.doubleColon, "::", ⟨1, 13⟩⟩, ⟨.number, "2", ⟨1, 15⟩⟩,
        ⟨.pipe, "|", ⟨1, 16⟩⟩, ⟨.identifier, "b", ⟨1, 18⟩⟩, ⟨.endOfText, "", ⟨1, 19⟩⟩]⟩ = .ok (a,
      ⟨6, [⟨.pipe, "|", ⟨1, 16⟩⟩, ⟨.identifier, "b", ⟨1, 18⟩⟩, ⟨.endOfText, "", ⟨1, 19⟩⟩]⟩) :=
    ok_of_cursor _ _ (by decide +kernel)
  obtain ⟨a, ha⟩ := hends
  refine ⟨[⟨.dollar, "$", ⟨1, 1⟩⟩, ⟨.identifier, "start", ⟨1, 2⟩⟩, ⟨.define, ":=", ⟨1, 8⟩⟩,
      ⟨.identifier, "a", ⟨1, 11⟩⟩, ⟨.doubleColon, "::", ⟨1, 13⟩⟩, ⟨.number, "2", ⟨1, 15⟩⟩],
    [⟨.identifier, "b", ⟨1, 18⟩⟩, ⟨.endOfText, "", ⟨1, 19⟩⟩], ⟨.pipe, "|", ⟨1, 16⟩⟩, ?_⟩
  exact ⟨by decide +kernel, by decide, .here (by decide) (.here ha rfl)⟩

end ProseGrammar
