import ProseGrammar.Proofs.Decimal.Integers
import ProseGrammar.Proofs.Grammar.Form
import ProseGrammar.Proofs.Grammar.Reads
import ProseGrammar.Proofs.Results

/-!
# Messages of one line

A message names rules, references, keys, places and texts that were found. Texts are quoted, which
escapes their line breaks; names that grammar text can hold have none. So a message is one line if
the keys that it names are.
-/

namespace ProseGrammar

namespace Text

/-- Whether a text has no line break. -/
def IsLine (s : String) : Prop :=
  '\n' ∉ s.toList

instance (s : String) : Decidable (IsLine s) :=
  inferInstanceAs (Decidable ('\n' ∉ s.toList))

@[simp] theorem isLine_append (s t : String) : IsLine (s ++ t) ↔ IsLine s ∧ IsLine t := by
  simp [IsLine, not_or]

@[simp] theorem isLine_ofList (cs : List Char) : IsLine (String.ofList cs) ↔ '\n' ∉ cs := by
  rw [IsLine, String.toList_ofList]

theorem isLine_intercalate {separator : String} (hs : IsLine separator) {parts : List String}
    (h : ∀ part ∈ parts, IsLine part) : IsLine (separator.intercalate parts) := by
  rw [IsLine, String.toList_intercalate]
  induction parts with
  | nil => exact List.not_mem_nil
  | cons part parts ih =>
    obtain ⟨hpart, hrest⟩ := List.forall_mem_cons.mp h
    cases parts with
    | nil =>
      rw [List.map_cons, List.map_nil, List.intercalate_singleton]
      exact hpart
    | cons next parts =>
      rw [List.map_cons, List.map_cons, List.intercalate_cons_cons, List.mem_append,
        List.mem_append, not_or, not_or]
      exact ⟨⟨hpart, hs⟩, ih hrest⟩

theorem isLine_between {name : String} (h : IsLine name) (before after : String)
    (hbefore : IsLine before) (hafter : IsLine after) : IsLine (before ++ name ++ after) := by
  rw [isLine_append, isLine_append]
  exact ⟨⟨hbefore, h⟩, hafter⟩

theorem not_mem_toDigits (n : Nat) : '\n' ∉ Nat.toDigits 10 n := by
  intro h
  exact absurd (isDigit_of_mem_toDigits n _ h) (by decide)

theorem isLine_nat (n : Nat) : IsLine (toString n) :=
  (isLine_ofList _).mpr (not_mem_toDigits n)

theorem isLine_of_isName (s : String) (h : isName s.toList = true) : IsLine s :=
  fun hmem => ne_newline_of_isName s.toList h _ hmem rfl

/-! ### Quoted texts -/

theorem not_mem_hexDigits (width n : Nat) : '\n' ∉ hexDigits width n := by
  have hdigit : ∀ d : Fin 16, Nat.digitChar d ≠ '\n' := by decide
  intro h
  obtain ⟨i, _, hi⟩ := List.mem_map.mp h
  exact hdigit ⟨n / 16 ^ i % 16, Nat.mod_lt _ (by decide)⟩ hi

theorem not_mem_escapeChar (mark c : Char) (hmark : mark ≠ '\n') : '\n' ∉ escapeChar mark c := by
  unfold escapeChar
  split
  next h =>
    simp only [Bool.or_eq_true, beq_iff_eq] at h
    rcases h with rfl | rfl
    · simp [hmark.symm]
    · decide
  next =>
    split
    next => decide
    next hc =>
      have hne : '\n' ≠ c := fun h => hc (beq_iff_eq.mpr h.symm)
      repeat' split
      all_goals simp [hne, not_mem_hexDigits]

/-- Line breaks in a text that is quoted are escaped. -/
theorem isLine_quoted (s : String) : IsLine (quoted s) := by
  have hmark : quotationMark s.toList ≠ '\n' := by
    unfold quotationMark
    split <;> decide
  refine (isLine_ofList _).mpr fun h => ?_
  simp only [List.cons_append, List.mem_cons, List.mem_append, List.mem_flatMap,
    List.not_mem_nil, or_false] at h
  rcases h with h | ⟨c, _, h⟩ | h
  · exact hmark h.symm
  · exact not_mem_escapeChar _ c hmark h
  · exact hmark h.symm

end Text

/-! ### Texts of values -/

open ProseGrammar.Text

namespace Decimal

theorem not_mem_plainText {digits : List Char} (h : '\n' ∉ digits) (point : Int) :
    '\n' ∉ plainText digits point := by
  unfold plainText
  split
  · simp [h]
  · dsimp only
    have htake : '\n' ∉ digits.take point.toNat := fun hmem => h (List.mem_of_mem_take hmem)
    have hdrop : '\n' ∉ digits.drop point.toNat := fun hmem => h (List.mem_of_mem_drop hmem)
    split <;> simp [htake, hdrop]

theorem not_mem_scientificText {digits : List Char} (h : '\n' ∉ digits) (exponent : Int) :
    '\n' ∉ scientificText digits exponent := by
  have htake : '\n' ∉ digits.take 1 := fun hmem => h (List.mem_of_mem_take hmem)
  have htail : '\n' ∉ digits.tail := fun hmem => h (List.mem_of_mem_tail hmem)
  have hpower := not_mem_toDigits exponent.natAbs
  unfold scientificText
  dsimp only
  split <;> split <;> simp [htake, htail, hpower]

theorem isLine_floatText (x : Float) : IsLine (floatText x) := by
  have htext : ∀ d : Decimal, '\n' ∉ d.text := by
    intro d
    unfold text
    dsimp only
    split
    · exact not_mem_plainText (not_mem_toDigits _) _
    · exact not_mem_scientificText (not_mem_toDigits _) _
  unfold floatText
  split
  · decide
  · split <;> decide
  next negative m e _ =>
    have hdigits : '\n' ∉ (if m = 0 then ['0', '.', '0'] else (shortest m e).text) := by
      split
      · decide
      · exact htext _
    refine (isLine_ofList _).mpr ?_
    split
    · simp only [List.mem_cons, not_or]
      exact ⟨by decide, hdigits⟩
    · exact hdigits

theorem isLine_of_integerText {n : Int} {s : String} (h : integerText n = .ok s) : IsLine s := by
  unfold integerText at h
  split at h
  · cases h
    have hdigits := not_mem_toDigits n.natAbs
    refine (isLine_ofList _).mpr ?_
    split <;> simp [hdigits]
  · cases h

end Decimal

namespace Value

mutual

theorem isLine_inspect (v : Value) (s : String) (h : v.inspect = .ok s) : IsLine s := by
  cases v with
  | null =>
    cases h
    decide
  | bool b =>
    cases h
    cases b <;> decide
  | number n =>
    cases n with
    | int n =>
      rw [inspect, Number.inspect] at h
      exact Decimal.isLine_of_integerText h
    | float x =>
      cases h
      exact Decimal.isLine_floatText x
  | text t =>
    cases h
    exact isLine_quoted t
  | list items =>
    rw [inspect] at h
    obtain ⟨parts, hparts, h⟩ := (bind_ok_iff _ _ _).mp h
    cases h
    refine isLine_between (isLine_intercalate (by simp [IsLine]) ?_) _ _ (by simp [IsLine])
      (by simp [IsLine])
    exact isLine_inspectItems items parts hparts
  | object entries =>
    rw [inspect] at h
    obtain ⟨parts, hparts, h⟩ := (bind_ok_iff _ _ _).mp h
    cases h
    refine isLine_between (isLine_intercalate (by simp [IsLine]) ?_) _ _ (by simp [IsLine])
      (by simp [IsLine])
    exact isLine_inspectEntries entries parts hparts
  | weighted value weight =>
    rw [inspect] at h
    obtain ⟨shown, hshown, h⟩ := (bind_ok_iff _ _ _).mp h
    cases h
    simp only [isLine_append]
    refine ⟨⟨⟨⟨by simp [IsLine], isLine_inspect value shown hshown⟩, by simp [IsLine]⟩,
      Decimal.isLine_floatText weight⟩, by simp [IsLine]⟩

theorem isLine_inspectItems (items : List Value) (parts : List String)
    (h : inspectItems items = .ok parts) : ∀ part ∈ parts, IsLine part := by
  cases items with
  | nil =>
    cases h
    nofun
  | cons item items =>
    rw [inspectItems] at h
    obtain ⟨shown, hshown, h⟩ := (bind_ok_iff _ _ _).mp h
    obtain ⟨others, hothers, h⟩ := (bind_ok_iff _ _ _).mp h
    cases h
    exact List.forall_mem_cons.mpr ⟨isLine_inspect item shown hshown,
      isLine_inspectItems items others hothers⟩

theorem isLine_inspectEntries (entries : List (String × Value)) (parts : List String)
    (h : inspectEntries entries = .ok parts) : ∀ part ∈ parts, IsLine part := by
  cases entries with
  | nil =>
    cases h
    nofun
  | cons entry entries =>
    obtain ⟨key, value⟩ := entry
    rw [inspectEntries] at h
    obtain ⟨shown, hshown, h⟩ := (bind_ok_iff _ _ _).mp h
    obtain ⟨others, hothers, h⟩ := (bind_ok_iff _ _ _).mp h
    cases h
    refine List.forall_mem_cons.mpr ⟨?_, isLine_inspectEntries entries others hothers⟩
    simp only [isLine_append]
    exact ⟨⟨isLine_quoted key, by simp [IsLine]⟩, isLine_inspect value shown hshown⟩

end

end Value

/-! ### Faults -/

theorem isLine_dotted {r : Reference} (h : ∀ segment ∈ r.path, IsLine segment) :
    IsLine r.dotted := by
  have hstart : IsLine (if r.isKnowledge then "$$." else "$") := by
    split <;> simp [IsLine]
  exact (isLine_append _ _).mpr ⟨hstart, isLine_intercalate (by simp [IsLine]) h⟩

theorem BinaryOp.isLine_symbol {op : BinaryOp} (h : op.isKnown = true) : IsLine op.symbol := by
  cases op with
  | other symbol => cases h
  | _ => simp [IsLine, symbol]

theorem isLine_evaluation {cause : EvaluationCause} {path : Option String}
    (hcause : IsLine cause.message) (hpath : ∀ name ∈ path, IsLine name) :
    IsLine (Fault.evaluation cause path).message := by
  cases path with
  | none =>
    have hmessage :
        (Fault.evaluation cause none).message = "Evaluation error: " ++ cause.message := rfl
    rw [hmessage, isLine_append]
    exact ⟨by simp [IsLine], hcause⟩
  | some name =>
    have hmessage : (Fault.evaluation cause (some name)).message =
        "Evaluation error at " ++ name ++ ": " ++ cause.message := rfl
    simp only [hmessage, isLine_append]
    exact ⟨⟨⟨by simp [IsLine], hpath name rfl⟩, by simp [IsLine]⟩, hcause⟩

theorem isLine_cause {cause : EvaluationCause} {path : Option String}
    (h : IsLine (Fault.evaluation cause path).message) : IsLine cause.message := by
  cases path <;> exact ((isLine_append _ _).mp h).2

theorem isLine_integerText (digits : Option Nat) : IsLine (Fault.integerText digits).message := by
  cases digits with
  | none => decide +kernel
  | some n =>
    have hmessage : (Fault.integerText (some n)).message =
        "Exceeds the limit (4300 digits) for integer string conversion" ++
          (": value has " ++ toString n ++ " digits") ++
            "; use sys.set_int_max_str_digits() to increase the limit" := rfl
    simp only [hmessage, isLine_append]
    exact ⟨⟨by simp [IsLine], ⟨by simp [IsLine], isLine_nat n⟩, by simp [IsLine]⟩,
      by simp [IsLine]⟩

theorem isLine_needsNumbers {symbol : String} (h : IsLine symbol) (left right : String) :
    IsLine (EvaluationCause.needsNumbers symbol left right).message := by
  have hmessage : (EvaluationCause.needsNumbers symbol left right).message =
      "Operator '" ++ symbol ++ "' needs numeric operands, got " ++ quoted left ++ " and " ++
        quoted right := rfl
  have hstart := isLine_between h "Operator '" "' needs numeric operands, got "
    (by simp [IsLine]) (by simp [IsLine])
  rw [hmessage, isLine_append]
  exact ⟨isLine_between (isLine_quoted left) _ _ hstart (by simp [IsLine]), isLine_quoted right⟩

theorem isLine_assignThroughProperty {property : String} (h : IsLine property) :
    IsLine (EvaluationCause.assignThroughProperty property).message :=
  isLine_between h "Cannot assign through non-object property '" "'"
    (by simp [IsLine]) (by simp [IsLine])

theorem isLine_assignThroughVariable {name : String} (h : IsLine name) :
    IsLine (EvaluationCause.assignThroughVariable name).message :=
  isLine_between h "Cannot assign through non-object variable '" "'"
    (by simp [IsLine]) (by simp [IsLine])

theorem isLine_valueNotObject {property : String} (h : IsLine property) (shown : String) :
    IsLine (EvaluationCause.valueNotObject property shown).message := by
  have hmessage : (EvaluationCause.valueNotObject property shown).message =
      "Cannot access property '" ++ property ++ "' of " ++ quoted shown := rfl
  rw [hmessage, isLine_append]
  exact ⟨isLine_between h _ _ (by simp [IsLine]) (by simp [IsLine]), isLine_quoted shown⟩

theorem isLine_undefined {name : String} (h : IsLine name) :
    IsLine (EvaluationCause.undefined name).message :=
  isLine_between h "Variable or rule '" "' not defined" (by simp [IsLine])
    (by simp [IsLine])

theorem isLine_depthLimit (limit : Nat) : IsLine (EvaluationCause.depthLimit limit).message :=
  isLine_between (isLine_nat limit) "Maximum expansion depth of " " exceeded" (by simp [IsLine])
    (by simp [IsLine])

theorem isLine_propertyAt {property place : String} (hproperty : IsLine property)
    (hplace : IsLine place) (before between : String) (hbefore : IsLine before)
    (hbetween : IsLine between) : IsLine (before ++ property ++ between ++ place) := by
  rw [isLine_append]
  exact ⟨isLine_between hproperty _ _ hbefore hbetween, hplace⟩

theorem isLine_parentNotObject {property place : String} (hproperty : IsLine property)
    (hplace : IsLine place) : IsLine (EvaluationCause.parentNotObject property place).message :=
  isLine_propertyAt hproperty hplace "Cannot access property '" "' of non-object at "
    (by simp [IsLine]) (by simp [IsLine])

theorem isLine_nullProperty {property place : String} (hproperty : IsLine property)
    (hplace : IsLine place) : IsLine (EvaluationCause.nullProperty property place).message :=
  isLine_propertyAt hproperty hplace "Property '" "' is null at "
    (by simp [IsLine]) (by simp [IsLine])

theorem isLine_missingProperty {property place available : String} (hproperty : IsLine property)
    (hplace : IsLine place) (havailable : IsLine available) :
    IsLine (EvaluationCause.missingProperty property place available).message := by
  have hmessage : (EvaluationCause.missingProperty property place available).message =
      "Property '" ++ property ++ "' not found at " ++ place ++ ". Available: [" ++ available ++
        "]" := rfl
  have hstart := isLine_propertyAt hproperty hplace "Property '" "' not found at "
    (by simp [IsLine]) (by simp [IsLine])
  rw [hmessage]
  exact isLine_between havailable _ _ ((isLine_append _ _).mpr ⟨hstart, by simp [IsLine]⟩)
    (by simp [IsLine])

theorem isLine_unresolved {reference : String} (h : IsLine reference) {cause : EvaluationCause}
    (hcause : IsLine cause.message) :
    IsLine (EvaluationCause.unresolved reference cause).message := by
  have hmessage : (EvaluationCause.unresolved reference cause).message =
      "Failed to resolve variable " ++ reference ++ ": " ++ cause.message := rfl
  rw [hmessage, isLine_append]
  exact ⟨isLine_between h _ _ (by simp [IsLine]) (by simp [IsLine]), hcause⟩

end ProseGrammar
