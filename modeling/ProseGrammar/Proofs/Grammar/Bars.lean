import ProseGrammar.Proofs.Grammar.Concatenation
import ProseGrammar.Proofs.Grammar.Forks

/-!
# Rules and the bars in them

The reader of rules as relations: which alternatives and rules it reads from a cursor on, and at
which bars between alternatives it comes by. Reading without a fault is being in these relations, so
what two texts read to is compared by cases on them.
-/

namespace ProseGrammar

namespace Parser

variable {inner outer : Inner} {c d e : Cursor}

/-! ### Alternatives and rules as they are read -/

/-- What the reader of the alternatives of a rule has read from a cursor on, and where it stops. -/
inductive Alternatives (inner : Inner) : Cursor → List Alternative → Cursor → Prop
  | last {c e : Cursor} {a : Alternative} (h : alternative inner c = .ok (a, e))
    (hk : e.kind ≠ .pipe) : Alternatives inner c [a] e
  | more {c d e : Cursor} {a : Alternative} {as : List Alternative}
    (h : alternative inner c = .ok (a, d)) (hk : d.kind = .pipe)
    (rest : Alternatives inner d.next as e) : Alternatives inner c (a :: as) e

/-- What the reader of rules has read from a cursor to the end of the text. -/
inductive Rules (inner : Inner) : Cursor → List Rule → Prop
  | nil {c : Cursor} (hk : c.skipBreaks.kind = .endOfText) : Rules inner c []
  | cons {c e : Cursor} {r : Rule} {rs : List Rule} (h : rule inner c.skipBreaks = .ok (r, e))
    (rest : Rules inner e rs) : Rules inner c (r :: rs)

/-- Whether the reader of the alternatives of a rule comes from one cursor to the other at a bar. -/
inductive BarWithin (inner : Inner) : Cursor → Cursor → Prop
  | here {c d : Cursor} {a : Alternative} (h : alternative inner c = .ok (a, d))
    (hk : d.kind = .pipe) : BarWithin inner c d
  | later {c d e : Cursor} {a : Alternative} (h : alternative inner c = .ok (a, e))
    (hk : e.kind = .pipe) (rest : BarWithin inner e.next d) : BarWithin inner c d

/-- Whether the reader of rules comes from one cursor to the other at a bar between two alternatives
of a rule. -/
inductive BarBetween (inner : Inner) : Cursor → Cursor → Prop
  | here {c d : Cursor} (hstart : c.skipBreaks.atRuleStart = true)
    (h : BarWithin inner c.skipBreaks.next.next.next d) : BarBetween inner c d
  | later {c d e : Cursor} {r : Rule} (h : rule inner c.skipBreaks = .ok (r, e))
    (rest : BarBetween inner e d) : BarBetween inner c d

/-! ### What a reader takes -/

/-- The fork of lists that end. -/
def nothing : Fork :=
  ⟨[], [], .inl ⟨rfl, rfl⟩⟩

/-- A reader that refuses names where another one gives them reads what the other one does. -/
theorem of_keeps_nothing {α : Type} {n : Nat} {parser other : Parser α} {a : α}
    (h : nothing.Keeps 0 n parser other c) (hc : parser c = .ok (a, e)) :
    other c = .ok (a, e) ∧ e.rest <:+ c.rest ∧ e.rest.length < n := by
  obtain ⟨hsuffix, hlen, hsame⟩ := h a e hc
  obtain ⟨e', he', hshared⟩ := hsame c (Fork.shared_self rfl rfl c) (Nat.zero_le _)
  rw [Fork.eq_of_shared hshared rfl rfl] at he'
  exact ⟨he', hsuffix, hlen⟩

theorem sameKinds_nothing : nothing.SameKinds 0 :=
  fun _ _ h _ => congrArg Cursor.kind (Fork.eq_of_shared h rfl rfl)

theorem alternative_suffix (hi : nothing.Kept 0 inner outer) {a : Alternative}
    (h : alternative inner c = .ok (a, e)) : e.rest <:+ c.rest ∧ e.rest.length ≤ c.rest.length := by
  obtain ⟨_, hsuffix, hlen⟩ := of_keeps_nothing (Fork.keeps_alternative hi sameKinds_nothing c) h
  exact ⟨hsuffix, Nat.le_of_lt_succ hlen⟩

/-! ### Rules as they are read -/

theorem repeatFrom_of_alternatives (hi : nothing.Kept 0 inner inner) {as : List Alternative}
    (h : Alternatives inner c as e) :
    ∃ a others d, as = a :: others ∧ alternative inner c = .ok (a, d) ∧
      ∀ bound : List Token, d.rest.length ≤ bound.length →
        repeatFrom (fun c => c.kind = .pipe) (advance >>= fun _ => alternative inner) bound d =
          .ok (others, e) := by
  induction h with
  | @last c e a h hk =>
    exact ⟨a, [], e, rfl, h, fun bound _ => repeatFrom_stop (decide_eq_false hk) bound⟩
  | @more c d e a as h hk rest ih =>
    obtain ⟨a', others, d', rfl, halternative, hothers⟩ := ih
    refine ⟨a, a' :: others, d, rfl, h, fun bound hb => ?_⟩
    have hne : d.kind ≠ .endOfText := by
      rw [hk]
      nofun
    have hnext := (Fork.length_next d).2.2 hne
    have hlen := (alternative_suffix hi halternative).2
    cases bound with
    | nil =>
      rw [List.length_nil] at hb
      omega
    | cons t bound =>
      rw [List.length_cons] at hb
      have hitem : (advance >>= fun _ => alternative inner) d = .ok (a', d') := halternative
      exact repeatFrom_next (decide_eq_true hk) hitem (hothers bound (by omega)) t

theorem alternatives_of_repeatFrom (bound : List Token) (c d e : Cursor) (a : Alternative)
    (others : List Alternative) (h : alternative inner c = .ok (a, d))
    (hothers : repeatFrom (fun c => c.kind = .pipe) (advance >>= fun _ => alternative inner) bound d =
      .ok (others, e)) (hi : nothing.Kept 0 inner inner) (hb : d.rest.length ≤ bound.length) :
    Alternatives inner c (a :: others) e := by
  induction bound generalizing c d a others with
  | nil =>
    cases hothers
    refine .last h fun hk => ?_
    have hpos := Fork.pos_of_kind (c := e) (by rw [hk]; nofun)
    rw [List.length_nil] at hb
    omega
  | cons t bound ih =>
    rw [List.length_cons] at hb
    rcases repeatFrom_cases hothers with
      ⟨hpipe, rfl, rfl⟩ | ⟨a', d', others', hpipe, hitem, hrest, rfl⟩
    · exact .last h (of_decide_eq_false hpipe)
    · have hk : d.kind = .pipe := of_decide_eq_true hpipe
      have hnext := (Fork.length_next d).2.2 (by rw [hk]; nofun)
      have halternative : alternative inner d.next = .ok (a', d') := hitem
      have hlen := (alternative_suffix hi halternative).2
      exact .more h hk (ih d.next d' a' others' halternative hrest (by omega))

theorem rule_iff (hi : nothing.Kept 0 inner inner) (c e : Cursor) (r : Rule) :
    rule inner c = .ok (r, e) ↔ c.atRuleStart = true ∧ r.name = c.next.current.value ∧
      Alternatives inner c.next.next.next r.alternatives e := by
  constructor
  · intro h
    have hstart := atRuleStart_of_rule inner c e r h
    obtain ⟨⟨_, c₁⟩, hdollar, h⟩ := (bind_ok_iff _ _ _).mp h
    obtain ⟨⟨t, c₂⟩, hname, h⟩ := (bind_ok_iff _ _ _).mp h
    obtain ⟨⟨_, c₃⟩, hdefine, h⟩ := (bind_ok_iff _ _ _).mp h
    obtain ⟨-, -, rfl⟩ := (expect_ok_iff _ _ _ _ _).mp hdollar
    obtain ⟨-, rfl, rfl⟩ := (expect_ok_iff _ _ _ _ _).mp hname
    obtain ⟨-, -, rfl⟩ := (expect_ok_iff _ _ _ _ _).mp hdefine
    obtain ⟨⟨first, c₄⟩, hfirst, h⟩ := (bind_ok_iff _ _ _).mp h
    obtain ⟨⟨others, c₅⟩, hothers, h⟩ := (bind_ok_iff _ _ _).mp h
    cases h
    exact ⟨hstart, rfl, alternatives_of_repeatFrom _ _ _ _ _ _ hfirst hothers hi (Nat.le_refl _)⟩
  · rintro ⟨hstart, hname, halternatives⟩
    obtain ⟨hk, hk₁, hk₂⟩ := (Fork.atRuleStart_iff c).mp hstart
    obtain ⟨first, others, d, hall, hfirst, hothers⟩ := repeatFrom_of_alternatives hi halternatives
    obtain ⟨name, alternatives⟩ := r
    obtain rfl : name = c.next.current.value := hname
    obtain rfl : alternatives = first :: others := hall
    refine (bind_ok_iff _ _ _).mpr ⟨_, (expect_ok_iff _ _ _ _ _).mpr ⟨hk, rfl, rfl⟩, ?_⟩
    refine (bind_ok_iff _ _ _).mpr ⟨_, (expect_ok_iff _ _ _ _ _).mpr ⟨hk₁, rfl, rfl⟩, ?_⟩
    refine (bind_ok_iff _ _ _).mpr ⟨_, (expect_ok_iff _ _ _ _ _).mpr ⟨hk₂, rfl, rfl⟩, ?_⟩
    refine (bind_ok_iff _ _ _).mpr ⟨_, hfirst, ?_⟩
    exact (bind_ok_iff _ _ _).mpr ⟨_, hothers d.rest (Nat.le_refl _), rfl⟩

theorem rules_of_end (hk : c.skipBreaks.kind = .endOfText) (rs : List Rule) :
    Rules inner c rs ↔ rs = [] := by
  constructor
  · intro h
    cases h with
    | nil => rfl
    | cons h _ =>
      have hdollar := kind_of_atRuleStart _ (atRuleStart_of_rule inner _ _ _ h)
      rw [hk] at hdollar
      cases hdollar
  · rintro rfl
    exact .nil hk

/-- Reading to the end of the text, without a fault. -/
theorem rulesFrom_iff (hi : nothing.Kept 0 inner inner) (bound : List Token) (c : Cursor)
    (rs : List Rule) (hb : c.rest.length ≤ bound.length) :
    Reading.rulesFrom inner bound c = ⟨rs, none⟩ ↔ Rules inner c rs := by
  have hshort : c.skipBreaks.rest.length ≤ c.rest.length := length_skipBreaks c.index c.rest
  have hended : ∀ (bound : List Token) (c : Cursor) (rs : List Rule),
      c.skipBreaks.kind = .endOfText →
        (Reading.rulesFrom inner bound c = ⟨rs, none⟩ ↔ Rules inner c rs) := by
    intro bound c rs hk
    rw [Reading.rulesFrom_stop inner bound c hk, rules_of_end hk, Reading.mk.injEq]
    simp only [and_true, eq_comm]
  -- the bound has a token for every rule, so reading stops at the end of the text only
  induction bound generalizing c rs with
  | nil =>
    refine hended [] c rs ?_
    by_contra hk
    have hpos := Fork.pos_of_kind hk
    rw [List.length_nil] at hb
    omega
  | cons t bound ih =>
    rw [List.length_cons] at hb
    by_cases hk : c.skipBreaks.kind = .endOfText
    · exact hended _ c rs hk
    · rw [Reading.rulesFrom_rule inner t bound c hk]
      cases hrule : rule inner c.skipBreaks with
      | error fault =>
        have hfault : Reading.ofRule (.error fault) (Reading.rulesFrom inner bound) ≠ ⟨rs, none⟩ := by
          intro h
          cases h
        refine iff_of_false hfault fun h => ?_
        cases h with
        | nil hend => exact hk hend
        | cons h => rw [hrule] at h; cases h
      | ok read =>
        obtain ⟨r, e⟩ := read
        obtain ⟨_, _, hlen⟩ := of_keeps_nothing (Fork.keeps_rule hi sameKinds_nothing _) hrule
        have hothers := fun rs => ih e rs (by omega) (length_skipBreaks e.index e.rest)
        constructor
        · intro h
          have hrules := (Reading.mk.inj h).1
          have hnone := (Reading.mk.inj h).2
          subst hrules
          refine .cons hrule ((hothers _).mp ?_)
          rw [← hnone]
        · intro h
          cases h with
          | nil hend => exact absurd hend hk
          | cons h rest =>
            rw [hrule] at h
            cases h
            have hrest := (hothers _).mpr rest
            rw [Reading.ofRule, hrest]

end Parser

end ProseGrammar
