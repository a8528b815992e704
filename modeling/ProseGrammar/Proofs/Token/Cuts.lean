import ProseGrammar.Proofs.Token.Joined
import ProseGrammar.Proofs.Token.Layout

/-!
# Texts cut at a bar

A bar that is a token stands apart from the tokens in front of it: no name, numeral or operator goes
on with a bar, nor with a line break. So line breaks at either side of it leave the tokens in front
of it as they are, and move those behind it.
-/

namespace ProseGrammar

/-! ### Places in order -/

def Position.Before (p q : Position) : Prop :=
  p.line < q.line ∨ p.line = q.line ∧ p.column < q.column

namespace Position

theorem not_before_self (p : Position) : ¬p.Before p := by
  unfold Before
  omega

theorem Before.trans {p q r : Position} (h : p.Before q) (h' : q.Before r) : p.Before r := by
  unfold Before at *
  omega

theorem before_step (p : Position) (c : Char) : p.Before (p.step c) := by
  unfold Before step
  split <;> simp

theorem after_cons (p : Position) (c : Char) (cs : List Char) :
    p.after (c :: cs) = (p.step c).after cs := rfl

theorem after_append (p : Position) (cs ds : List Char) :
    p.after (cs ++ ds) = (p.after cs).after ds := List.foldl_append

theorem before_after (p : Position) (c : Char) (cs : List Char) : p.Before (p.after (c :: cs)) := by
  induction cs generalizing p c with
  | nil => exact before_step p c
  | cons d cs ih =>
    rw [after_cons]
    exact (before_step p c).trans (ih (p.step c) d)

end Position

/-- The tokens of a text stand where it starts or behind. -/
theorem position_of_scanFrom (p : Position) (cs : List Char) (ts : List Token)
    (h : Token.scanFrom p cs = .ok ts) : ∀ t ∈ ts, t.position = p ∨ p.Before t.position := by
  have hbehind : ∀ (q : Position) (c : Char) (more : List Char) (us : List Token),
      (∀ t ∈ us, t.position = q.after (c :: more) ∨ (q.after (c :: more)).Before t.position) →
        ∀ t ∈ us, t.position = q ∨ q.Before t.position := by
    intro q c more us hus t ht
    right
    rcases hus t ht with heq | hbefore
    · rw [heq]
      exact q.before_after c more
    · exact (q.before_after c more).trans hbefore
  -- every step of the scan moves the place forward
  fun_induction Token.scanFrom p cs generalizing ts with
  | case1 p =>
    cases h
    intro t ht
    rw [List.mem_singleton.mp ht]
    exact .inl rfl
  | case2 p c rest hgap ih => exact hbehind p c [] ts (ih ts h)
  | case3 p rest comment hgap ih => exact hbehind p '#' comment ts (ih ts h)
  | case4 p c rest hgap hhash cause hread => cases h
  | case5 p c rest hgap hhash lexeme hread taken ih =>
    obtain ⟨others, hothers, h⟩ := (bind_ok_iff _ _ _).mp h
    cases h
    intro t ht
    rcases List.mem_cons.mp ht with rfl | ht
    · exact .inl rfl
    · exact hbehind p c _ others (ih others hothers) t ht

/-! ### What is taken in front of a bar -/

/-- A piece of text that reaches beyond a place has no token behind it at that place. -/
theorem absurd_of_beyond (p : Position) (cs : List Char) (d : Char) (more rest : List Char)
    (ts : List Token) (h : Token.scanFrom (p.after (cs ++ d :: more)) rest = .ok ts) (t : Token)
    (ht : t ∈ ts) : t.position ≠ p.after cs := by
  intro heq
  have hbefore := (p.after cs).before_after d more
  rw [← Position.after_append] at hbefore
  rcases position_of_scanFrom _ rest ts h t ht with hsame | hbehind
  · rw [hsame] at heq
    rw [heq] at hbefore
    exact Position.not_before_self _ hbefore
  · rw [heq] at hbehind
    exact Position.not_before_self _ (hbefore.trans hbehind)

/-- A comment or a lexeme in front of a bar that is a token ends before the bar. -/
theorem ends_before_bar (p : Position) (c : Char) (cs tail word after : List Char) (bar : Token)
    (ts : List Token) (hsplit : cs ++ '|' :: tail = word ++ after)
    (h : Token.scanFrom (p.after (c :: word)) after = .ok ts) (hbar : bar ∈ ts)
    (hplace : bar.position = p.after (c :: cs)) :
    ∃ rest, cs = word ++ rest ∧ after = rest ++ '|' :: tail := by
  rcases List.append_eq_append_iff.mp hsplit with ⟨beyond, rfl, htail⟩ | hwithin
  · cases beyond with
    | nil => exact ⟨[], by simp, htail.symm⟩
    | cons d more =>
      obtain ⟨rfl, -⟩ := List.cons.inj htail
      exact absurd hplace (absurd_of_beyond p (c :: cs) '|' more after ts h bar hbar)
  · exact hwithin

/-- The first of some tokens does not stand where a later one does. -/
theorem exists_of_later (p : Position) (c : Char) (cs : List Char) (t bar : Token)
    (before after others : List Token) (h : t :: others = before ++ bar :: after)
    (ht : t.position = p) (hplace : bar.position = p.after (c :: cs)) :
    ∃ before', before = t :: before' ∧ others = before' ++ bar :: after := by
  cases before with
  | nil =>
    obtain ⟨rfl, _⟩ := List.cons.inj h
    have hbefore := p.before_after c cs
    rw [← hplace, ht] at hbefore
    exact absurd hbefore p.not_before_self
  | cons u before =>
    obtain ⟨rfl, hothers⟩ := List.cons.inj h
    exact ⟨before, rfl, hothers⟩

theorem scanFrom_bar (p : Position) (tail : List Char) :
    Token.scanFrom p ('|' :: tail) =
      (⟨.pipe, "|", p⟩ :: ·) <$> Token.scanFrom (p.step '|') tail := by
  have hpair : Lexeme.pair? '|' tail = none := by cases tail <;> rfl
  have hread : Lexeme.read '|' ([] ++ tail) = .ok (Lexeme.plain .pipe '|' []) := by
    simp [Lexeme.read, Lexeme.operator?, hpair, TokenKind.ofChar?]
  exact Piece.scanFrom_lexeme p '|' [] tail _ (by decide) (by decide) rfl hread

/-! ### Texts in front of a bar -/

/-- A character that goes on with no name, numeral or operator: a bar or a line break. -/
def IsCut (c : Char) : Prop :=
  c = '|' ∨ c = '\n'

theorem IsCut.isApart {c : Char} (h : IsCut c) : IsApart c := by
  rcases h with rfl | rfl <;> decide

/-- Whether the text in front of a bar has the tokens `before` in front of every cut, and the text
from the bar on has the tokens `others`. -/
def CutsAt (p : Position) (cs tail : List Char) (before others : List Token) : Prop :=
  Token.scanFrom (p.after cs) ('|' :: tail) = .ok others ∧
    ∀ d tail', IsCut d → Token.scanFrom p (cs ++ d :: tail') =
      (before ++ ·) <$> Token.scanFrom (p.after cs) (d :: tail')

theorem cutsAt_nil (p : Position) (tail : List Char) (before after : List Token) (bar : Token)
    (h : Token.scanFrom p ('|' :: tail) = .ok (before ++ bar :: after)) (hplace : bar.position = p) :
    CutsAt p [] tail before (bar :: after) := by
  have hbefore : before = [] := by
    rw [scanFrom_bar] at h
    obtain ⟨others, hothers, h⟩ := (bind_ok_iff _ _ _).mp h
    have h : ⟨.pipe, "|", p⟩ :: others = before ++ bar :: after := Except.ok.inj h
    cases before with
    | nil => rfl
    | cons t before =>
      have hmem : bar ∈ others := by
        rw [(List.cons.inj h).2]
        exact List.mem_append_right _ List.mem_cons_self
      exact absurd hplace (absurd_of_beyond p [] '|' [] tail others hothers bar hmem)
  subst hbefore
  exact ⟨h, fun d tail' _ => (id_map (Token.scanFrom p (d :: tail'))).symm⟩

/-- A piece in front of a text that splits alike in front of every cut, and the tokens it holds in
front of them. -/
theorem cutsAt_of_piece (p : Position) (piece cs tail : List Char) (held before others : List Token)
    (hpiece : ∀ d tail', IsCut d → Token.scanFrom p (piece ++ (cs ++ d :: tail')) =
      (held ++ ·) <$> Token.scanFrom (p.after piece) (cs ++ d :: tail'))
    (h : CutsAt (p.after piece) cs tail before others) :
    CutsAt p (piece ++ cs) tail (held ++ before) others := by
  obtain ⟨hbar, hcut⟩ := h
  rw [CutsAt, Position.after_append]
  refine ⟨hbar, fun d tail' hd => ?_⟩
  rw [List.append_assoc, hpiece d tail' hd, hcut d tail' hd]
  cases Token.scanFrom ((p.after piece).after cs) (d :: tail') with
  | error fault => rfl
  | ok ts => exact congrArg Except.ok (List.append_assoc held before ts).symm

/-- A text in front of a bar that is a token splits alike in front of every cut. -/
theorem scanFrom_cut (p : Position) (cs tail : List Char) (before after : List Token) (bar : Token)
    (h : Token.scanFrom p (cs ++ '|' :: tail) = .ok (before ++ bar :: after))
    (hplace : bar.position = p.after cs) : CutsAt p cs tail before (bar :: after) := by
  have hmem : ∀ ts, bar ∈ ts ++ bar :: after := fun ts =>
    List.mem_append_right ts List.mem_cons_self
  -- comments and lexemes take more than one character, so the induction is on the length
  induction hlen : cs.length using Nat.strongRecOn generalizing p cs before with
  | ind n ih =>
  cases cs with
  | nil => exact cutsAt_nil p tail before after bar h hplace
  | cons c cs =>
    have hshorter : ∀ word rest, cs = word ++ rest → rest.length < n := by
      intro word rest hcs
      rw [← hlen, hcs, List.length_cons, List.length_append]
      omega
    rw [List.cons_append] at h
    by_cases hgap : Text.isGap c = true
    · rw [Piece.scanFrom_gap p c _ hgap] at h
      refine cutsAt_of_piece p [c] cs tail [] before _ (fun d tail' _ => ?_)
        (ih _ (hshorter [] cs rfl) (p.step c) cs before h hplace rfl)
      exact (Piece.scanFrom_gap p c _ hgap).trans (id_map (Token.scanFrom (p.step c) _)).symm
    by_cases hhash : c = '#'
    · subst hhash
      obtain ⟨rest, hsplit, -, hbody, hrest⟩ := exists_comment (cs ++ '|' :: tail)
      generalize (cs ++ '|' :: tail).takeWhile (· ≠ '\n') = body at hsplit hbody
      rw [hsplit, scanFrom_comment p body rest hbody hrest] at h
      obtain ⟨rest, rfl, rfl⟩ :=
        ends_before_bar p '#' cs tail body rest bar _ hsplit h (hmem before) hplace
      refine cutsAt_of_piece p ('#' :: body) rest tail [] before _ (fun d tail' _ => ?_)
        (ih _ (hshorter body rest rfl) _ rest before h ?_ rfl)
      · have hbreak : ∀ e ∈ (rest ++ d :: tail').head?, e = '\n' := by
          cases rest with
          | nil => exact absurd (hrest '|' rfl) (by decide)
          | cons e rest => exact hrest
        exact (scanFrom_comment p body _ hbody hbreak).trans (id_map (Token.scanFrom _ _)).symm
      · rw [hplace, ← Position.after_append, List.cons_append]
    cases hread : Lexeme.read c (cs ++ '|' :: tail) with
    | error cause =>
      rw [Token.scanFrom, if_neg hgap, if_neg hhash, hread] at h
      cases h
    | ok lexeme =>
      have hgap : Text.isGap c = false := Bool.eq_false_iff.mpr hgap
      obtain ⟨word, rest, hsplit, hmore⟩ := word_of_read c _ lexeme hread
      rw [hsplit] at h hread
      rw [Piece.scanFrom_lexeme p c word rest lexeme hgap hhash hmore hread] at h
      obtain ⟨others, hothers, h⟩ := (bind_ok_iff _ _ _).mp h
      obtain ⟨before, rfl, rfl⟩ := exists_of_later p c cs _ bar before after others
        (Except.ok.inj h) rfl hplace
      obtain ⟨rest, rfl, rfl⟩ :=
        ends_before_bar p c cs tail word rest bar _ hsplit hothers (hmem before) hplace
      refine cutsAt_of_piece p (c :: word) rest tail [_] before _ (fun d tail' hd => ?_)
        (ih _ (hshorter word rest rfl) _ rest before hothers ?_ rfl)
      · have halike := stopsAlike_cut d hd.isApart rest ('|' :: tail) tail'
        exact Piece.scanFrom_lexeme p c word _ lexeme hgap hhash hmore
          (read_of_stopsAlike c word _ _ lexeme halike hmore hread)
      · rw [hplace, ← Position.after_append, List.cons_append]

/-! ### Line breaks at either side of a bar -/

theorem scanFrom_breaks (n : Nat) (p : Position) :
    ∃ breaks q, breaks.length = n ∧ (∀ t ∈ breaks, t.kind = .newline) ∧
      ∀ tail, Token.scanFrom p (List.replicate n '\n' ++ tail) =
        (breaks ++ ·) <$> Token.scanFrom q tail := by
  induction n generalizing p with
  | zero =>
    exact ⟨[], p, rfl, by simp, fun tail => (id_map (Token.scanFrom p tail)).symm⟩
  | succ n ih =>
    obtain ⟨breaks, q, hlen, hbreaks, hscan⟩ := ih ⟨p.line + 1, 1⟩
    refine ⟨⟨.newline, "\n", p⟩ :: breaks, q, by rw [List.length_cons, hlen],
      List.forall_mem_cons.mpr ⟨rfl, hbreaks⟩, fun tail => ?_⟩
    rw [List.replicate_succ, List.cons_append, scanFrom_break, hscan]
    cases Token.scanFrom q tail <;> rfl

theorem Token.Aligned.symm {ts us : List Token} (h : Token.Aligned ts us) : Token.Aligned us ts := by
  induction h with
  | nil => exact .nil
  | cons hkind hvalue hjoint h ih =>
    refine .cons hkind.symm hvalue.symm (fun u' hu' t' ht' hpart hpart' => ?_) ih
    have hkind' : t'.kind = u'.kind := by
      cases h with
      | nil => cases ht'
      | cons hkind' =>
        obtain rfl := Option.some.inj hu'
        obtain rfl := Option.some.inj ht'
        exact hkind'
    exact (hjoint t' ht' u' hu' (hkind ▸ hpart) (hkind' ▸ hpart')).symm

theorem Token.Aligned.trans {ts us vs : List Token} (h : Token.Aligned ts us)
    (h' : Token.Aligned us vs) : Token.Aligned ts vs := by
  induction h generalizing vs with
  | nil => exact h'
  | @cons t u ts us hkind hvalue hjoint h ih =>
    cases h' with
    | @cons _ v _ vs hkind' hvalue' hjoint' h' =>
      refine .cons (hkind.trans hkind') (hvalue.trans hvalue')
        (fun t' ht' v' hv' hpart hpart' => ?_) (ih h')
      cases h with
      | nil => cases ht'
      | @cons _ u' _ _ hkind₁ =>
        obtain rfl := Option.some.inj ht'
        exact (hjoint _ rfl u' rfl hpart hpart').trans
          (hjoint' u' rfl v' hv' (hkind ▸ hpart) (hkind₁ ▸ hpart'))

/-- A text splits into aligned tokens wherever it starts. -/
theorem scanFrom_elsewhere (p q : Position) (cs : List Char) (ts : List Token)
    (h : Token.scanFrom p cs = .ok ts) :
    ∃ us, Token.scanFrom q cs = .ok us ∧ Token.Aligned ts us := by
  have hp := scanFrom_tidied p cs ⟨1, 1⟩ ⟨1, 1⟩ .start trivial
  have hq := scanFrom_tidied q cs ⟨1, 1⟩ ⟨1, 1⟩ .start trivial
  rw [h] at hp
  generalize Token.scanFrom q cs = y at hq ⊢
  generalize Token.scanFrom ⟨1, 1⟩ (Text.tidyFrom (.between .start) cs) = z at hp hq
  cases hp with
  | ok hp =>
    cases hq with
    | ok hq => exact ⟨_, rfl, hp.1.trans hq.1.symm⟩

/-- Line breaks at either side of a bar that is a token are tokens at either side of the bar; those in
front of it stay, and those behind it stay but for their places. -/
theorem scanFrom_broken (p : Position) (left right : List Char) (before after : List Token)
    (bar : Token) (h : Token.scanFrom p (left ++ '|' :: right) = .ok (before ++ bar :: after))
    (hplace : bar.position = p.after left) (j k : Nat) :
    bar.kind = .pipe ∧ ∃ breaks bar' breaks' after',
      Token.scanFrom p (left ++ (List.replicate j '\n' ++ '|' :: (List.replicate k '\n' ++ right))) =
        .ok (before ++ (breaks ++ bar' :: (breaks' ++ after'))) ∧
      breaks.length = j ∧ (∀ t ∈ breaks, t.kind = .newline) ∧ bar'.kind = .pipe ∧
      (∀ t ∈ breaks', t.kind = .newline) ∧ Token.Aligned after after' := by
  obtain ⟨hbar, hcut⟩ := scanFrom_cut p left right before after bar h hplace
  rw [scanFrom_bar] at hbar
  obtain ⟨others, hright, hothers⟩ := (bind_ok_iff _ _ _).mp hbar
  obtain ⟨rfl, rfl⟩ := List.cons.inj (Except.ok.inj hothers)
  refine ⟨rfl, ?_⟩
  obtain ⟨breaks, q, hlen, hbreaks, hscan⟩ := scanFrom_breaks j (p.after left)
  obtain ⟨breaks', q', _, hbreaks', hscan'⟩ := scanFrom_breaks k (q.step '|')
  obtain ⟨after', hafter, haligned⟩ := scanFrom_elsewhere _ q' right _ hright
  have hfront : ∀ tail, Token.scanFrom p (left ++ (List.replicate j '\n' ++ '|' :: tail)) =
      (before ++ ·) <$> Token.scanFrom (p.after left) (List.replicate j '\n' ++ '|' :: tail) := by
    intro tail
    cases j with
    | zero => exact hcut '|' tail (.inl rfl)
    | succ j => exact hcut '\n' _ (.inr rfl)
  refine ⟨breaks, ⟨.pipe, "|", q⟩, breaks', after', ?_, hlen, hbreaks, rfl, hbreaks', haligned⟩
  rw [hfront, hscan, scanFrom_bar, hscan', hafter]
  rfl

end ProseGrammar
