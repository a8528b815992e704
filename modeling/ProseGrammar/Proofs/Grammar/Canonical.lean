import ProseGrammar.Proofs.Decimal.Integers
import ProseGrammar.Proofs.Grammar.RoundTrip

/-!
# Canonical grammars

A grammar is canonical if its trees are the ones that the reader makes of their source text: no
numeral stands as a text where it would be read as a number, a lone name is a variable exactly where
it is an operand, and weights are positive integers. Writing such a grammar and reading it gives the
grammar back.
-/

namespace ProseGrammar

/-! ### Definition -/

mutual

/-- Whether a node is an expression that reads back as itself in a place. -/
def Node.isCanonical : Place → Node → Bool
  | _, .literal (.text s) => !Text.isPlainNumeral s.toList
  | _, .literal (.number (.int n)) => n.natAbs < Decimal.digitBound
  | place, .rule name => Text.isName name.toList && place ≠ .operand
  | place, .reference target => target.isPath && (!target.isSingle || place = .operand)
  | _, .assign target op expression =>
    target.isPath && op.isKnown && expression.isCanonical .expression
  | _, .binary left op right =>
    left.isCanonical .operand && op.isKnown && right.isCanonical .operand
  | _, .conditional condition whenTrue whenFalse =>
    condition.isCanonical .expression && whenTrue.isCanonical .branch &&
      whenFalse.isCanonical .otherwise
  | _, .silent expression => expression.isCanonical .expression
  | place, .group members prose =>
    (!prose || (place.holdsProse && signsApart true members)) && 2 ≤ members.length &&
      allCanonical members
  | place, .missing => place = .otherwise
  | _, _ => false

def allCanonical : List Node → Bool
  | [] => true
  | n :: rest => n.isCanonical .expression && allCanonical rest

end

/-- Whether a node is an element that reads back as itself: any text, or an expression that is no
literal. -/
def Node.isCanonicalElement : Node → Bool
  | .literal (.text _) => true
  | .literal _ => false
  | n => n.isCanonical .expression

/-- Whether a weight is a positive integer below `2 ^ 53`, as an integer or as a double. -/
def Value.isCanonicalWeight : Value → Bool
  | .number (.int n) => 0 < n && n < 2 ^ 53
  | .number (.float w) =>
    match (Binary64.ofFloat w).toInt? with
    | some n => 0 < n && n < 2 ^ 53
    | none => false
  | _ => false

/-- Whether an alternative has elements, neither the first nor the last a line break, and all of it
reads back as itself. -/
def Alternative.isCanonical (a : Alternative) : Bool :=
  !a.elements.isEmpty && a.elements.all Node.isCanonicalElement &&
    a.elements.head?.all (fun n => !n.isLineBreak) &&
    a.elements.getLast?.all (fun n => !n.isLineBreak) && a.weight.isCanonicalWeight

def Rule.isCanonical (r : Rule) : Bool :=
  !r.alternatives.isEmpty && r.alternatives.all Alternative.isCanonical

/-- Whether a grammar has rules, each under its own name, that all read back as themselves. -/
def Grammar.isCanonical (g : Grammar) : Bool :=
  !g.rules.isEmpty && decide g.rules.keys.Nodup && g.rules.all fun entry =>
    Text.isName entry.1.toList && entry.2.name == entry.1 && entry.2.isCanonical

/-! ### Weights as doubles -/

/-- A weight as the double that it is read back as. -/
def Value.asDouble : Value → Value
  | .number (.int n) => .float (Binary64.nearest (decide (n < 0)) n.natAbs 1)
  | v => v

def Alternative.withDouble (a : Alternative) : Alternative :=
  ⟨a.elements, a.weight.asDouble⟩

def Rule.withDoubles (r : Rule) : Rule :=
  ⟨r.name, r.alternatives.map Alternative.withDouble⟩

def Grammar.withDoubles (g : Grammar) : Grammar :=
  ⟨g.rules.map fun entry => (entry.1, entry.2.withDoubles)⟩

def Value.isDouble : Value → Bool
  | .number (.float _) => true
  | _ => false

/-- Whether all weights of a grammar are doubles, as where the reader makes them. -/
def Grammar.hasDoubles (g : Grammar) : Bool :=
  g.rules.all fun entry => entry.2.alternatives.all fun a => a.weight.isDouble

theorem withDoubles_of_hasDoubles (g : Grammar) (h : g.hasDoubles = true) : g.withDoubles = g := by
  obtain ⟨rules⟩ := g
  simp only [Grammar.hasDoubles, List.all_eq_true] at h
  have hweight : ∀ v : Value, v.isDouble = true → v.asDouble = v := by
    intro v hv
    cases v with
    | number m => cases m <;> first | rfl | cases hv
    | _ => rfl
  have hrule : ∀ entry ∈ rules, (entry.1, entry.2.withDoubles) = entry := by
    rintro ⟨key, ⟨name, alternatives⟩⟩ he
    have halternative : ∀ a ∈ alternatives, a.withDouble = a := by
      rintro ⟨elements, weight⟩ ha
      rw [Alternative.withDouble, hweight weight (h _ he _ ha)]
    rw [Rule.withDoubles, List.map_congr_left halternative, List.map_id']
  rw [Grammar.withDoubles, List.map_congr_left hrule, List.map_id']

/-! ### Literals -/

theorem ofSource?_digits (ds : List Char) (h : ∀ c ∈ ds, Decimal.isDigit c = true) :
    Number.ofSource? ds = Number.ofPlainNumeral? ds := by
  unfold Number.ofSource?
  split
  · exact absurd (h '-' List.mem_cons_self) (by decide)
  · rfl

theorem readsBack_int (n : Int) (h : n.natAbs < Decimal.digitBound) :
    (Value.number (.int n)).readsBack = true := by
  let digits := Nat.toDigits 10 n.natAbs
  have hdigits : ∀ c ∈ digits, Decimal.isDigit c = true := isDigit_of_mem_toDigits n.natAbs
  have hread : Number.ofPlainNumeral? digits = some (.int n.natAbs) := by
    rw [Number.ofPlainNumeral?, if_pos (isPlainNumeral_of_digits digits Nat.toDigits_ne_nil hdigits),
      numberOfText?_toDigits n.natAbs h]
  have hsource : Number.ofSource? (if n < 0 then '-' :: digits else digits) = some (.int n) := by
    by_cases hneg : n < 0
    · rw [if_pos hneg, Number.ofSource?, hread]
      show some (Number.int (-(n.natAbs : Int))) = _
      rw [show -(n.natAbs : Int) = n by omega]
    · rw [if_neg hneg, ofSource?_digits digits hdigits, hread, show (n.natAbs : Int) = n by omega]
  simp only [Value.readsBack, Number.display, Decimal.integerText, if_pos h, String.toList_ofList]
  exact decide_eq_true hsource

theorem integerText_digits (n : Int) (hn : 0 < n) (hlt : n < 2 ^ 53) :
    Decimal.integerText n = .ok (String.ofList (Nat.toDigits 10 n.toNat)) := by
  have hbound : n.toNat < Decimal.digitBound := by
    have hpow : 2 ^ 53 ≤ Decimal.digitBound := by decide +kernel
    omega
  simp only [Decimal.integerText, show n.natAbs = n.toNat by omega, if_pos hbound,
    if_neg (show ¬n < 0 by omega)]

theorem display_of_toInt? (w : Float) (n : Int) (h : (Binary64.ofFloat w).toInt? = some n)
    (hn : 0 < n) (hlt : n < 2 ^ 53) :
    (Number.float w).display = .ok (String.ofList (Nat.toDigits 10 n.toNat)) := by
  obtain ⟨⟨m, e, hfinite, -⟩, -⟩ := toBits_of_toInt? w n h hn hlt
  rw [hfinite] at h
  simp only [Number.display, hfinite, h, integerText_digits n hn hlt]

theorem toFloat_digits (n : Nat) :
    Numeral.toFloat ⟨false, Nat.toDigits 10 n, none, none⟩ = Binary64.nearest false n 1 := by
  have hdigits : Decimal.ofDigits (Nat.toDigits 10 n ++ []) = n := by
    rw [List.append_nil, ofDigits_toDigits]
  rw [Numeral.toFloat]
  simp only [Option.getD_none, hdigits, List.length_nil]
  rw [Decimal.toFloat]
  by_cases hn : n = 0
  · subst hn
    rfl
  · rw [if_neg (not_or.mpr ⟨hn, by omega⟩)]
    simp

theorem weightReadsBack_of_toInt? (w : Float) (n : Int)
    (h : (Binary64.ofFloat w).toInt? = some n) (hn : 0 < n) (hlt : n < 2 ^ 53) :
    (Value.number (.float w)).weightReadsBack = true := by
  have hdigits := isDigit_of_mem_toDigits n.toNat
  have hplain := isPlainNumeral_of_digits _ Nat.toDigits_ne_nil hdigits
  have hread := ofChars?_digits _ Nat.toDigits_ne_nil hdigits
  simp only [Value.weightReadsBack, display_of_toInt? w n h hn hlt, String.toList_ofList, hplain,
    hread, Option.map_some, toFloat_digits, eq_nearest_of_toInt? w n h hn hlt]
  simp

/-! ### Trees -/

mutual

/-- A canonical expression fits its place, is plain and is not changed by being read back. -/
theorem fits_of_isCanonical (n : Node) (place : Place) (h : n.isCanonical place = true) :
    n.fits place = true ∧ n.plain = true ∧ n.reread place = n := by
  cases n with
  | literal v =>
    cases v with
    | text s => exact ⟨rfl, h, rfl⟩
    | number m =>
      cases m with
      | int k => exact ⟨rfl, readsBack_int k (of_decide_eq_true h), rfl⟩
      | float x => cases h
    | _ => cases h
  | rule name =>
    simp only [Node.isCanonical, Bool.and_eq_true, decide_eq_true_eq] at h
    exact ⟨h.1, rfl, if_neg h.2⟩
  -- a lone name has to stand where a variable reads back, or it would read back as a rule
  | reference target =>
    simp only [Node.isCanonical, Bool.and_eq_true, Bool.or_eq_true, Bool.not_eq_true',
      decide_eq_true_eq] at h
    refine ⟨h.1, rfl, if_neg ?_⟩
    simp only [Bool.and_eq_true, decide_eq_true_eq, not_and, Decidable.not_not, ne_eq]
    intro hsingle
    rcases h.2 with hmany | hplace
    · rw [hsingle] at hmany
      cases hmany
    · exact hplace
  | assign target op expression =>
    simp only [Node.isCanonical, Bool.and_eq_true] at h
    obtain ⟨hf, hp, hr⟩ := fits_of_isCanonical expression .expression h.2
    refine ⟨?_, hp, ?_⟩
    · simp [Node.fits, h.1, hf]
    · simp [Node.reread, hr]
  | binary left op right =>
    simp only [Node.isCanonical, Bool.and_eq_true] at h
    obtain ⟨hfl, hpl, hrl⟩ := fits_of_isCanonical left .operand h.1.1
    obtain ⟨hfr, hpr, hrr⟩ := fits_of_isCanonical right .operand h.2
    refine ⟨?_, ?_, ?_⟩
    · simp [Node.fits, h.1.2, hfl, hfr]
    · simp [Node.plain, hpl, hpr]
    · simp [Node.reread, hrl, hrr]
  | conditional condition whenTrue whenFalse =>
    simp only [Node.isCanonical, Bool.and_eq_true] at h
    obtain ⟨hfc, hpc, hrc⟩ := fits_of_isCanonical condition .expression h.1.1
    obtain ⟨hft, hpt, hrt⟩ := fits_of_isCanonical whenTrue .branch h.1.2
    obtain ⟨hff, hpf, hrf⟩ := fits_of_isCanonical whenFalse .otherwise h.2
    refine ⟨?_, ?_, ?_⟩
    · simp [Node.fits, hfc, hft, hff]
    · simp [Node.plain, hpc, hpt, hpf]
    · simp [Node.reread, hrc, hrt, hrf]
  | silent expression =>
    obtain ⟨hf, hp, hr⟩ := fits_of_isCanonical expression .expression h
    exact ⟨hf, hp, by simp [Node.reread, hr]⟩
  | group members prose =>
    simp only [Node.isCanonical, Bool.and_eq_true, Bool.or_eq_true, Bool.not_eq_true',
      decide_eq_true_eq] at h
    obtain ⟨hf, hp, hr⟩ := fitAll_of_allCanonical members h.2
    refine ⟨?_, ?_, by simp [Node.reread, hr]⟩
    · rcases h.1.1 with hlist | hprose
      · simp [Node.fits, hlist, h.1.2, hf]
      · simp [Node.fits, hprose.1, h.1.2, hf]
    · rcases h.1.1 with hlist | hprose
      · simp [Node.plain, hlist, hp]
      · simp [Node.plain, hprose.2, hp]
  | missing => exact ⟨h, rfl, rfl⟩
  | alternative a => cases h
  | definition r => cases h

theorem fitAll_of_allCanonical (members : List Node) (h : allCanonical members = true) :
    fitAll members = true ∧ plainAll members = true ∧ rereadAll members = members := by
  cases members with
  | nil => exact ⟨rfl, rfl, rfl⟩
  | cons n rest =>
    simp only [allCanonical, Bool.and_eq_true] at h
    obtain ⟨hf, hp, hr⟩ := fits_of_isCanonical n .expression h.1
    obtain ⟨hfs, hps, hrs⟩ := fitAll_of_allCanonical rest h.2
    refine ⟨?_, ?_, ?_⟩
    · simp [fitAll, hf, hfs]
    · simp [plainAll, hp, hps]
    · simp [rereadAll, hr, hrs]

end

theorem fits_of_isCanonicalElement (n : Node) (h : n.isCanonicalElement = true) :
    n.fits .expression = true ∧ n.plainElement = true ∧ n.rereadElement = n := by
  cases n with
  | literal v =>
    cases v with
    | text s => exact ⟨rfl, rfl, rfl⟩
    | _ => cases h
  | _ => exact fits_of_isCanonical _ .expression h

/-! ### Weights -/

theorem ofFloat_one : Binary64.ofFloat 1 = .finite false (2 ^ 52) (-52) := by
  simp only [Binary64.ofFloat, toBits_one]
  decide +kernel

theorem equal_one_of_int (n : Int) : (Value.int n).equal (.float 1) = decide (n = 1) := by
  have hcompare : (Value.int n).equal (.float 1) =
      (((Binary64.ofFloat 1).compareInt n).map Ordering.swap == some .eq) := rfl
  rw [hcompare, ofFloat_one]
  by_cases h : n = 1
  · subst h
    decide +kernel
  · rw [decide_eq_false h, beq_eq_false_iff_ne]
    intro heq
    have heq : some (compare (2 ^ 52 : Int) (n * 2 ^ 52)).swap = some .eq := heq
    rw [Option.some.injEq, Ordering.swap_eq_eq, Int.compare_eq_eq] at heq
    omega

theorem equal_one_of_toInt? (w : Float) (n : Int) (h : (Binary64.ofFloat w).toInt? = some n)
    (hn : 0 < n) (hlt : n < 2 ^ 53) : (Value.float w).equal (.float 1) = decide (n = 1) := by
  have hone : (Binary64.ofFloat 1).toInt? = some 1 := by
    rw [ofFloat_one]
    decide
  by_cases hw : n = 1
  · subst hw
    have heq : w = 1 := by
      rw [← eq_nearest_of_toInt? w 1 h hn hlt, eq_nearest_of_toInt? 1 1 hone hn hlt]
    rw [heq]
    decide +kernel
  · rw [decide_eq_false hw, Bool.eq_false_iff]
    intro heq
    rw [eq_one_of_equal w heq, hone, Option.some.injEq] at h
    exact hw h.symm

/-- A canonical weight becomes a double that is a positive integer, and its text stays the same. -/
theorem asDouble_of_isCanonicalWeight (v : Value) (h : v.isCanonicalWeight = true) :
    ∃ w n, v.asDouble = .float w ∧ (Binary64.ofFloat w).toInt? = some n ∧ 0 < n ∧ n < 2 ^ 53 ∧
      v.display = (Number.float w).display ∧
        v.equal (.float 1) = (Value.float w).equal (.float 1) := by
  cases v with
  | number m =>
    cases m with
    | int n =>
      simp only [Value.isCanonicalWeight, Bool.and_eq_true, decide_eq_true_eq] at h
      have hexact := toInt?_nearest n.natAbs (by omega) (by omega)
      rw [show (n.natAbs : Int) = n by omega] at hexact
      have hdouble : (Value.number (.int n)).asDouble =
          .float (Binary64.nearest false n.natAbs 1) := by
        rw [Value.asDouble, decide_eq_false (by omega)]
      refine ⟨_, n, hdouble, hexact, h.1, h.2, ?_, ?_⟩
      · rw [display_of_toInt? _ n hexact h.1 h.2]
        exact integerText_digits n h.1 h.2
      · rw [equal_one_of_toInt? _ n hexact h.1 h.2]
        exact equal_one_of_int n
    | float w =>
      simp only [Value.isCanonicalWeight] at h
      split at h
      next n hn =>
        simp only [Bool.and_eq_true, decide_eq_true_eq] at h
        exact ⟨w, n, rfl, hn, h.1, h.2, rfl, rfl⟩
      next => cases h
  | _ => cases h

theorem source_withDouble (a : Alternative) (h : a.weight.isCanonicalWeight = true) :
    a.withDouble.source = a.source := by
  obtain ⟨elements, weight⟩ := a
  obtain ⟨w, n, hdouble, -, -, -, hdisplay, hone⟩ := asDouble_of_isCanonicalWeight weight h
  rw [Alternative.withDouble, hdouble, Alternative.source, Alternative.source, hdisplay, hone]
  rfl

/-- A canonical alternative, with its weight as a double, fits, is plain and is not changed by being
read back. -/
theorem fits_withDouble (a : Alternative) (h : a.isCanonical = true) :
    a.withDouble.fits = true ∧ a.withDouble.plain = true ∧ a.withDouble.reread = a.withDouble := by
  obtain ⟨elements, weight⟩ := a
  simp only [Alternative.isCanonical, Bool.and_eq_true, List.all_eq_true] at h
  obtain ⟨⟨⟨⟨hempty, helements⟩, hhead⟩, hlast⟩, hweight⟩ := h
  obtain ⟨w, n, hdouble, hexact, hn, hlt, -, -⟩ := asDouble_of_isCanonicalWeight weight hweight
  obtain ⟨⟨m, e, hfinite, hm⟩, -⟩ := toBits_of_toInt? w n hexact hn hlt
  have hfits : ∀ members : List Node, (∀ x ∈ members, x.isCanonicalElement = true) →
      fitAll members = true ∧ members.map Node.rereadElement = members := by
    intro members
    induction members with
    | nil => exact fun _ => ⟨rfl, rfl⟩
    | cons x members ih =>
      intro hall
      obtain ⟨hf, -, hr⟩ := fits_of_isCanonicalElement x (hall x List.mem_cons_self)
      obtain ⟨hfs, hrs⟩ := ih fun y hy => hall y (List.mem_cons_of_mem x hy)
      refine ⟨?_, ?_⟩
      · simp [fitAll, hf, hfs]
      · rw [List.map_cons, hr, hrs]
  obtain ⟨hf, hr⟩ := hfits elements helements
  rw [Alternative.withDouble, hdouble]
  refine ⟨?_, ?_, ?_⟩
  · have hpositive : decide (w ≤ 0) = false :=
      decide_eq_false (not_le_zero_of_finite w m e hfinite hm)
    simp only [Alternative.fits, Bool.and_eq_true]
    exact ⟨⟨⟨⟨hf, hempty⟩, hhead⟩, hlast⟩, by rw [Value.float]; simp [hpositive]⟩
  · simp only [Alternative.plain, Bool.and_eq_true, List.all_eq_true]
    exact ⟨fun x hx => (fits_of_isCanonicalElement x (helements x hx)).2.1,
      weightReadsBack_of_toInt? w n hexact hn hlt⟩
  · rw [Alternative.reread, hr]

/-! ### Grammars -/

theorem source_withDoubles_rule (r : Rule) (h : r.isCanonical = true) :
    r.withDoubles.source = r.source := by
  obtain ⟨name, alternatives⟩ := r
  have hsources : ∀ as : List Alternative, (∀ a ∈ as, a.isCanonical = true) →
      alternativeSources (as.map Alternative.withDouble) = alternativeSources as := by
    intro as
    induction as with
    | nil => exact fun _ => rfl
    | cons a as ih =>
      intro hall
      have ha := hall a List.mem_cons_self
      simp only [Alternative.isCanonical, Bool.and_eq_true] at ha
      rw [List.map_cons, alternativeSources, alternativeSources, source_withDouble a ha.2,
        ih fun b hb => hall b (List.mem_cons_of_mem a hb)]
  simp only [Rule.isCanonical, Bool.and_eq_true, List.all_eq_true] at h
  rw [Rule.withDoubles, Rule.source, Rule.source, hsources alternatives h.2]

theorem source_withDoubles (g : Grammar) (h : g.isCanonical = true) :
    g.withDoubles.source = g.source := by
  obtain ⟨rules⟩ := g
  simp only [Grammar.isCanonical, Bool.and_eq_true, List.all_eq_true] at h
  have hdefinitions : ∀ entries : List (String × Rule), (∀ e ∈ entries, e.2.isCanonical = true) →
      (entries.map fun entry => (entry.1, entry.2.withDoubles)).mapM
          (fun entry => do return "$" ++ entry.1 ++ " := " ++ (← entry.2.source)) =
        (entries.mapM fun entry => do return "$" ++ entry.1 ++ " := " ++ (← entry.2.source) :
          Except Fault (List String)) := by
    intro entries
    induction entries with
    | nil => exact fun _ => rfl
    | cons entry entries ih =>
      intro hall
      rw [List.map_cons, List.mapM_cons, List.mapM_cons,
        source_withDoubles_rule entry.2 (hall entry List.mem_cons_self),
        ih fun e he => hall e (List.mem_cons_of_mem entry he)]
  rw [Grammar.source, Grammar.source, Grammar.withDoubles,
    hdefinitions rules fun e he => (h.2 e he).2]

theorem levels_withDoubles (g : Grammar) : g.withDoubles.levels = g.levels := by
  have hrule : ∀ r : Rule, r.withDoubles.levels = r.levels := by
    intro r
    rw [Rule.levels, Rule.levels, Rule.withDoubles, List.foldr_map]
    rfl
  simp only [Grammar.levels, Grammar.withDoubles, List.foldr_map, hrule]

theorem fits_withDoubles (g : Grammar) (h : g.isCanonical = true) :
    g.withDoubles.fits = true ∧ g.withDoubles.plain = true ∧
      g.withDoubles.reread = g.withDoubles := by
  obtain ⟨rules⟩ := g
  simp only [Grammar.isCanonical, Bool.and_eq_true, List.all_eq_true, beq_iff_eq,
    decide_eq_true_eq] at h
  obtain ⟨⟨hempty, hkeys⟩, hentries⟩ := h
  have hrule : ∀ r : Rule, r.isCanonical = true → r.withDoubles.fits = true ∧
      r.withDoubles.alternatives.all Alternative.plain = true ∧
        r.withDoubles.reread = r.withDoubles := by
    intro r hr
    obtain ⟨name, alternatives⟩ := r
    simp only [Rule.isCanonical, Bool.and_eq_true, List.all_eq_true] at hr
    have hall := fun a ha => fits_withDouble a (hr.2 a ha)
    refine ⟨?_, ?_, ?_⟩
    · simp only [Rule.fits, Rule.withDoubles, List.isEmpty_map, List.all_map, Bool.and_eq_true,
        List.all_eq_true]
      exact ⟨hr.1, fun a ha => (hall a ha).1⟩
    · simp only [Rule.withDoubles, List.all_map, List.all_eq_true]
      exact fun a ha => (hall a ha).2.1
    · simp only [Rule.withDoubles, Rule.reread, List.map_map, Rule.mk.injEq, true_and]
      exact List.map_congr_left fun a ha => (hall a ha).2.2
  refine ⟨?_, ?_, ?_⟩
  · simp only [Grammar.fits, Grammar.withDoubles, List.isEmpty_map, List.all_map, Bool.and_eq_true,
      List.all_eq_true]
    refine ⟨⟨hempty, decide_eq_true ?_⟩, fun e he => ?_⟩
    · rw [Table.keys, List.map_map]
      exact hkeys
    · simp only [Function.comp_apply, Bool.and_eq_true, beq_iff_eq]
      exact ⟨(hentries e he).1, (hrule e.2 (hentries e he).2).1⟩
  · simp only [Grammar.plain, Grammar.withDoubles, List.all_map, List.all_eq_true]
    exact fun e he => (hrule e.2 (hentries e he).2).2.1
  · simp only [Grammar.reread, Grammar.withDoubles, List.map_map, Grammar.mk.injEq]
    exact List.map_congr_left fun e he => by
      simp only [Function.comp_apply, (hrule e.2 (hentries e he).2).2.2]

/-- The source text of a canonical grammar reads back as the grammar, without a warning, if the
limit on nesting allows its levels. Weights are read as doubles, which they are unless the grammar
was made by hand. -/
theorem reading_source_of_isCanonical (g : Grammar) (h : g.isCanonical = true) :
    (g.hasDoubles = true → g.withDoubles = g) ∧
      ∃ s ts, g.source = .ok s ∧ Token.scan s = .ok ts ∧ ∀ depth, g.levels ≤ depth →
        (Reading.ofTokens depth ts).grammar = .ok g.withDoubles ∧
          (Reading.ofTokens depth ts).warnings = [] := by
  refine ⟨withDoubles_of_hasDoubles g, ?_⟩
  obtain ⟨hf, hp, hr⟩ := fits_withDoubles g h
  obtain ⟨s, ts, hs, hscan, hread⟩ := reading_source g.withDoubles hf hp
  rw [source_withDoubles g h] at hs
  rw [hr, levels_withDoubles] at hread
  exact ⟨s, ts, hs, hscan, hread⟩

/-- A grammar with every form of element: a greeting that depends on what is known of the player. -/
def greeting : Grammar :=
  ⟨[("start", ⟨"start", [
      ⟨[.literal (.text "Well \"met\","), .rule "name", .literal (.text "!"), Node.lineBreak,
        .reference ⟨["player", "title"], true⟩,
        .silent (.assign ⟨["seen"], false⟩ .add (.literal (.number (.int (-1)))))], .float 3⟩,
      ⟨[.conditional
        (.binary (.binary (.reference ⟨["seen"], false⟩) .add (.literal (.number (.int 1)))) .less
          (.reference ⟨["limit", "low"], false⟩))
        (.group [.literal (.text "once"), .literal (.text ","), .literal (.number (.int (-2)))] true)
        (.conditional (.reference ⟨["known"], true⟩) (.rule "name")
          (.group [.assign ⟨["a", "b"], true⟩ .set (.literal (.text "05 ")), .rule "name"] false))],
        .float 1⟩]⟩),
    ("name", ⟨"name", [⟨[.literal (.text "5")], .float 1⟩]⟩)]⟩

theorem reading_source_greeting :
    greeting.isCanonical = true ∧ greeting.withDoubles = greeting ∧
      ∃ s ts, greeting.source = .ok s ∧ Token.scan s = .ok ts ∧ ∀ depth, greeting.levels ≤ depth →
        (Reading.ofTokens depth ts).grammar = .ok greeting ∧
          (Reading.ofTokens depth ts).warnings = [] := by
  have h : greeting.isCanonical = true := by decide +kernel
  have hdoubles : greeting.hasDoubles = true := by decide +kernel
  obtain ⟨hsame, hread⟩ := reading_source_of_isCanonical greeting h
  rw [hsame hdoubles] at hread
  exact ⟨h, hsame hdoubles, hread⟩

end ProseGrammar
