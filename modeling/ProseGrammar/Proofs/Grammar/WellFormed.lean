import ProseGrammar.Proofs.Grammar.Fitting

/-!
# What is read is well-formed

A node occurs in a grammar if it is an element of an alternative or a part of a node that occurs
there. A grammar is well-formed if its rules, its alternatives and every node that occurs in it, at
any depth, have the shape that the syntax gives them. Every grammar that is read from a text is.
-/

namespace ProseGrammar

/-! ### Occurrences -/

/-- The parts of a node, each with the place where it stands. -/
def Node.parts : Node → List (Place × Node)
  | .literal _ => []
  | .rule _ => []
  | .reference _ => []
  | .assign _ _ expression => [(.expression, expression)]
  | .binary left _ right => [(.operand, left), (.operand, right)]
  | .conditional condition whenTrue whenFalse =>
    [(.expression, condition), (.branch, whenTrue), (.otherwise, whenFalse)]
  | .silent expression => [(.expression, expression)]
  | .group members _ => members.map fun n => (.expression, n)
  | .alternative a => a.elements.map fun n => (.expression, n)
  | .definition r => (r.alternatives.flatMap (·.elements)).map fun n => (.expression, n)
  | .missing => []

/-- The nodes of a grammar, at every depth, and the places where they stand. -/
inductive Grammar.Occurs (g : Grammar) : Place → Node → Prop
  | element {entry : String × Rule} {a : Alternative} {n : Node} (hentry : entry ∈ g.rules)
      (ha : a ∈ entry.2.alternatives) (hn : n ∈ a.elements) : g.Occurs .expression n
  | part {place place' : Place} {n n' : Node} (h : g.Occurs place n)
      (hpart : (place', n') ∈ n.parts) : g.Occurs place' n'

/-! ### Shapes -/

def Node.IsProse : Node → Prop
  | .group _ prose => prose = true
  | _ => False

/-- Whether a reference is a path of at least one name. -/
structure Reference.IsNamed (target : Reference) : Prop where
  nonempty : target.path ≠ []
  names : ∀ segment ∈ target.path, Text.isName segment.toList = true

/-- What the syntax asks of a node in a place, its parts aside. -/
def Node.IsShaped (place : Place) : Node → Prop
  | .literal v => (∃ s, v = .text s) ∨ ∃ n, v = .number n
  | .rule name => Text.isName name.toList = true
  | .reference target => target.IsNamed
  | .assign target op _ => target.IsNamed ∧ op ∈ [AssignOp.set, .add, .subtract]
  | .binary _ op _ =>
    op ∈ [BinaryOp.add, .subtract, .multiply, .divide, .equal, .notEqual, .less, .greater,
      .lessEqual, .greaterEqual]
  | .conditional _ _ _ => True
  | .silent _ => True
  | .group members prose =>
    2 ≤ members.length ∧
      (prose = true → place ∈ [Place.branch, .otherwise] ∧ ∀ n ∈ members, ¬n.IsProse)
  | .alternative _ => False
  | .definition _ => False
  | .missing => place = .otherwise

structure Alternative.WellFormed (a : Alternative) : Prop where
  weight : ∃ w, a.weight = .float w ∧ 0 < w
  nonempty : a.elements ≠ []
  first : a.elements.head? ≠ some Node.lineBreak
  last : a.elements.getLast? ≠ some Node.lineBreak

structure Rule.WellFormed (r : Rule) : Prop where
  name : Text.isName r.name.toList = true
  nonempty : r.alternatives ≠ []
  alternatives : ∀ a ∈ r.alternatives, a.WellFormed

structure Grammar.WellFormed (g : Grammar) : Prop where
  nonempty : g.rules ≠ []
  keys : g.rules.keys.Nodup
  names : ∀ entry ∈ g.rules, entry.2.name = entry.1
  rules : ∀ entry ∈ g.rules, entry.2.WellFormed
  nodes : ∀ place n, g.Occurs place n → n.IsShaped place

/-! ### What fits is well-formed -/

theorem fits_part {place : Place} {n : Node} (h : n.fits place = true) {part : Place × Node}
    (hpart : part ∈ n.parts) : part.2.fits part.1 = true := by
  cases n with
  | literal v => cases hpart
  | rule name => cases hpart
  | reference target => cases hpart
  | assign target op expression =>
    simp only [Node.fits, Bool.and_eq_true] at h
    obtain rfl := List.mem_singleton.mp hpart
    exact h.2
  | binary left op right =>
    simp only [Node.fits, Bool.and_eq_true] at h
    simp only [Node.parts, List.mem_cons, List.not_mem_nil, or_false] at hpart
    rcases hpart with rfl | rfl
    · exact h.1.1
    · exact h.2
  | conditional condition whenTrue whenFalse =>
    simp only [Node.fits, Bool.and_eq_true] at h
    simp only [Node.parts, List.mem_cons, List.not_mem_nil, or_false] at hpart
    rcases hpart with rfl | rfl | rfl
    · exact h.1.1
    · exact h.1.2
    · exact h.2
  | silent expression =>
    obtain rfl := List.mem_singleton.mp hpart
    exact h
  | group members prose =>
    simp only [Node.fits, Bool.and_eq_true] at h
    obtain ⟨n, hn, rfl⟩ := List.mem_map.mp hpart
    exact fits_of_mem members h.2 n hn
  | alternative a => cases h
  | definition r => cases h
  | missing => cases hpart

theorem isNamed_of_isPath {target : Reference} (h : target.isPath = true) : target.IsNamed := by
  simp only [Reference.isPath, Bool.and_eq_true, Bool.not_eq_true', List.isEmpty_eq_false_iff,
    List.all_eq_true] at h
  exact ⟨h.1, h.2⟩

theorem not_isProse_of_fits {n : Node} (h : n.fits .expression = true) : ¬n.IsProse := by
  cases n with
  | group members prose =>
    cases prose with
    | false => exact Bool.false_ne_true
    | true => cases h
  | _ => exact id

theorem isShaped_of_fits {place : Place} {n : Node} (h : n.fits place = true) :
    n.IsShaped place := by
  cases n with
  | literal v =>
    cases v with
    | text s => exact .inl ⟨s, rfl⟩
    | number n => exact .inr ⟨n, rfl⟩
    | _ => cases h
  | rule name => exact h
  | reference target => exact isNamed_of_isPath h
  | assign target op expression =>
    simp only [Node.fits, Bool.and_eq_true] at h
    refine ⟨isNamed_of_isPath h.1.1, ?_⟩
    cases op with
    | other symbol => exact absurd h.1.2 Bool.false_ne_true
    | _ => decide
  | binary left op right =>
    simp only [Node.fits, Bool.and_eq_true] at h
    cases op with
    | other symbol => exact absurd h.1.2 Bool.false_ne_true
    | _ => simp [Node.IsShaped]
  | conditional condition whenTrue whenFalse => trivial
  | silent expression => trivial
  | group members prose =>
    simp only [Node.fits, Bool.and_eq_true, decide_eq_true_eq] at h
    refine ⟨h.1.2, fun hprose => ⟨?_, fun n hn => not_isProse_of_fits (fits_of_mem members h.2 n hn)⟩⟩
    subst hprose
    have hplace : place.holdsProse = true := h.1.1
    cases place with
    | branch => decide
    | otherwise => decide
    | _ => cases hplace
  | alternative a => cases h
  | definition r => cases h
  | missing => exact of_decide_eq_true (p := place = .otherwise) h

theorem Grammar.Occurs.fits {g : Grammar} (hg : g.fits = true) {place : Place} {n : Node}
    (h : g.Occurs place n) : n.fits place = true := by
  induction h with
  | element hentry ha hn =>
    simp only [Grammar.fits, Rule.fits, Bool.and_eq_true, List.all_eq_true] at hg
    have hfits := (hg.2 _ hentry).2.2 _ ha
    simp only [Alternative.fits, Bool.and_eq_true] at hfits
    exact fits_of_mem _ hfits.1.1.1.1 _ hn
  | part h hpart ih => exact fits_part ih hpart

theorem wellFormed_of_fits {a : Alternative} (h : a.fits = true) (hweight : a.IsWeighed) :
    a.WellFormed := by
  simp only [Alternative.fits, Bool.and_eq_true, Bool.not_eq_true', List.isEmpty_eq_false_iff] at h
  obtain ⟨⟨⟨⟨-, hne⟩, hfirst⟩, hlast⟩, -⟩ := h
  refine ⟨hweight, hne, fun hhead => ?_, fun hhead => ?_⟩
  · rw [hhead] at hfirst
    cases hfirst
  · rw [hhead] at hlast
    cases hlast

/-- Every grammar that is read from the tokens of a text is well-formed. -/
theorem wellFormed_of_reading (source : String) (ts : List Token) (depth : Nat) (g : Grammar)
    (hscan : Token.scan source = .ok ts)
    (hread : (Reading.ofTokens depth ts).grammar = .ok g) : g.WellFormed := by
  have hfits := fits_of_reading source ts depth g hscan hread
  have hweights := isWeighed_of_reading source ts depth g hscan hread
  have hg := hfits
  simp only [Grammar.fits, Bool.and_eq_true, Bool.not_eq_true', List.isEmpty_eq_false_iff,
    decide_eq_true_eq, List.all_eq_true, beq_iff_eq] at hg
  obtain ⟨⟨hne, hkeys⟩, hrules⟩ := hg
  refine ⟨hne, hkeys, fun entry he => (hrules entry he).1.2, fun entry he => ?_,
    fun place n hn => isShaped_of_fits (hn.fits hfits)⟩
  obtain ⟨⟨hname, heq⟩, hrule⟩ := hrules entry he
  simp only [Rule.fits, Bool.and_eq_true, Bool.not_eq_true', List.isEmpty_eq_false_iff,
    List.all_eq_true] at hrule
  exact ⟨by rw [heq]; exact hname, hrule.1,
    fun a ha => wellFormed_of_fits (hrule.2 a ha) (hweights entry he a ha)⟩

/-- A text with a chain of branches, an assignment to no variable, and line breaks at both ends of
an alternative. -/
def Text.innkeeper : String :=
  "$start := [$hour < 12 ? Good [$$.guest.name] | $hour < 18 ? so what | 1 += 2] ::2.5 |\n\nhm\n"

theorem wellFormed_of_reading_innkeeper :
    ∃ ts g, Token.scan Text.innkeeper = .ok ts ∧ (Reading.ofTokens 5 ts).grammar = .ok g ∧
      g.WellFormed ∧ g.rules.keys = ["start"] := by
  obtain ⟨ts, g, hscan, hread, hcheck⟩ := exists_reading Text.innkeeper 5
    (fun g => g.rules.keys = ["start"]) (by decide +kernel)
  exact ⟨ts, g, hscan, hread, wellFormed_of_reading Text.innkeeper ts 5 g hscan hread,
    of_decide_eq_true hcheck⟩

end ProseGrammar
