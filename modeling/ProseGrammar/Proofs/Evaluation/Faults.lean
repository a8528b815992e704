import ProseGrammar.Proofs.Evaluation.OnStack
import ProseGrammar.Proofs.Evaluation.Scopes
import ProseGrammar.Proofs.Foreseen
import ProseGrammar.Proofs.Grammar.Fitting
import ProseGrammar.Proofs.Rounding

/-!
# Faults of an evaluation

A grammar that was read from a text is well-formed: its rules have alternatives with numbers for
weights, its operators have a meaning, its references have a name. So its executions reach no
internal fault, whatever values the knowledge holds and wherever the depth limit lies: they give a
text and an object, or they fail in a foreseen way. The induction is on the levels that the depth
limit leaves and, within one level, on the nodes. It is carried out for evaluation in one frame,
which comes to the same.
-/

namespace ProseGrammar

variable {σ : Type} [DrawSource σ]

/-! ### Selection -/

section

variable {sound lined : Prop}

namespace Selection

theorem shallow_addWeight (total : Number) {weight : Value}
    (h : sound → weight.isNumber = true) :
    Shallow sound lined (Arithmetic.addWeight total weight) := by
  cases weight with
  | number n => exact Number.shallow_lift _ _ total n
  | bool b => exact Number.shallow_lift _ _ total _
  | _ => exact Shallow.unforeseen rfl rfl fun hs => nomatch h hs

theorem shallow_sum {weights : List Value} (h : sound → ∀ w ∈ weights, w.isNumber = true)
    (total : Number) : Shallow sound lined (weights.foldlM Arithmetic.addWeight total) := by
  induction weights generalizing total with
  | nil => exact failsIn_ok total
  | cons w rest ih =>
    rw [List.foldlM_cons]
    refine failsIn_bind (shallow_addWeight total fun hs => h hs w List.mem_cons_self)
      fun total => ?_
    exact ih (fun hs w hw => h hs w (List.mem_cons_of_mem _ hw)) total

theorem shallow_reach {weights : List Value} (h : sound → ∀ w ∈ weights, w.isNumber = true)
    (target before : Number) :
    Shallow sound lined (reach Arithmetic.values target before weights) := by
  induction weights generalizing before with
  | nil => exact failsIn_ok 0
  | cons w rest ih =>
    refine failsIn_bind (shallow_addWeight before fun hs => h hs w List.mem_cons_self)
      fun total => ?_
    split
    · exact failsIn_ok 0
    · exact failsIn_bind (ih (fun hs w hw => h hs w (List.mem_cons_of_mem _ hw)) total) fun _ =>
        failsIn_ok _

theorem shallow_weightedIndex {weights : List Value}
    (h : sound → ∀ w ∈ weights, w.isNumber = true) (draw : Number) :
    Shallow sound lined (weightedIndex Arithmetic.values weights draw) := by
  refine failsIn_bind (shallow_sum h _) fun total => ?_
  refine failsIn_bind (Number.shallow_lift _ _ draw total) fun target => ?_
  exact failsIn_bind (shallow_reach h target _) fun _ => failsIn_ok _

/-- A selection without weights fails as the count does, at the rounding or at the position. -/
theorem failsIn_uniformIndex {F : Fault → Prop} (count : Nat) (draw : Float)
    (hcount : FailsIn F (Number.floatOfInt count)) (hnan : F .floorOfNaN)
    (hinfinity : F .floorOfInfinity) (hrange : F .indexRange) :
    FailsIn F (uniformIndex floorFloat (Number.floatOfInt ·) count draw) := by
  refine failsIn_bind hcount fun n => ?_
  refine failsIn_bind ?_ fun i => ?_
  · unfold floorFloat
    split
    · exact failsIn_error hnan
    · exact failsIn_error hinfinity
    · exact failsIn_ok _
  · unfold position
    split
    · exact failsIn_ok _
    · split
      · exact failsIn_ok _
      · split
        · exact failsIn_ok _
        · exact failsIn_error hrange

theorem shallow_uniformIndex {draw : Float} (hdraw : sound → IsShare draw) {count : Nat}
    (hcount : 0 < count) :
    Shallow sound lined (uniformIndex floorFloat (Number.floatOfInt ·) count draw) := by
  intro fault hfault
  have hwithin := failsIn_uniformIndex count draw (Number.shallow_floatOfInt count).withinDepth rfl
    rfl rfl
  have hlined := failsIn_uniformIndex count draw (Number.shallow_floatOfInt count).toLined nofun
    nofun nofun
  refine ⟨hwithin fault hfault, fun hs => ?_, fun _ => hlined fault hfault⟩
  rcases uniformIndex_of_share (hdraw hs) hcount with h | ⟨index, h, _⟩
  · rw [h] at hfault
    cases hfault
    rfl
  · rw [h] at hfault
    cases hfault

end Selection

/-- An item of a list is selected whatever the list holds, unless doubles cannot count it. -/
theorem shallow_selectItem (hσ : sound → DrawsShares σ) (items : List Value) (c : Context σ) :
    Shallow sound lined (selectItem items c) := by
  unfold selectItem
  split
  · exact failsIn_ok _
  next hitems =>
    have hlength : 0 < (items.map Value.choice).length := by
      rw [List.length_map]
      exact List.length_pos_iff.mpr (by simpa using hitems)
    generalize items.map Value.choice = choices at hlength
    dsimp only
    split
    · refine failsIn_bind_ok (failsIn_ok _) fun index hindex => ?_
      have hlt : index < choices.length := by
        cases hindex
        show min _ (_ - 1) < choices.length
        rw [List.length_map]
        omega
      rw [List.getElem?_eq_getElem hlt]
      exact failsIn_ok _
    · refine failsIn_bind_ok (Selection.shallow_uniformIndex (fun hs => hσ hs c.draws) hlength)
        fun index hindex => ?_
      split
      · exact failsIn_ok _
      next hnone =>
        refine Shallow.error rfl (fun hs => ?_) fun _ h => nomatch h
        rcases Selection.uniformIndex_of_share (hσ hs c.draws) hlength with h | ⟨i, h, hlt⟩
        · rw [h] at hindex
          cases hindex
        · rw [h] at hindex
          cases hindex
          rw [List.getElem?_eq_getElem hlt] at hnone
          cases hnone

/-! ### References -/

theorem shallow_readKnowledge (hσ : sound → DrawsShares σ) (path : List String) (c : Context σ)
    (hcauses : lined → ∀ cause, Value.resolve ["$$"] c.knowledge path = .error cause →
      Text.IsLine cause.message) : Shallow sound lined (readKnowledge path c) := by
  unfold readKnowledge
  split
  next cause hcause =>
    obtain ⟨hdepth, hinternal⟩ := Value.resolve_cause hcause
    exact Shallow.evaluation hdepth hinternal (fun hl => hcauses hl cause hcause) nofun
  next items _ => exact shallow_selectItem hσ items c
  next => exact failsIn_ok _

omit [DrawSource σ] in
theorem shallow_readVariable (name : String) (path : List String) (c : Context σ)
    (hkeys : lined → ∀ key ∈ name :: path, Text.IsLine key) :
    Shallow sound lined (readVariable name path c) := by
  unfold readVariable
  split
  · refine Shallow.evaluation rfl rfl (fun hl => ?_) nofun
    exact isLine_undefined (hkeys hl name List.mem_cons_self)
  next value _ =>
    refine failsIn_bind (value.shallow_descend path fun hl => ?_) fun inner => ?_
    · exact (List.forall_mem_cons.mp (hkeys hl)).2
    exact failsIn_bind inner.shallow_coerce fun _ => failsIn_ok _

omit [DrawSource σ] in
theorem shallow_blameReference {target : Reference}
    (hkeys : lined → ∀ key ∈ target.path, Text.IsLine key) {r : Except Fault (Outcome σ)}
    (h : Shallow sound lined r) : Shallow sound lined (blameReference target r) := by
  unfold blameReference
  split
  next cause path =>
    obtain ⟨hdepth, hforeseen, hline⟩ := h (.evaluation cause path) rfl
    refine Shallow.error hdepth hforeseen fun hl hf => ?_
    have hdotted := isLine_dotted (hkeys hl)
    have hcause := isLine_cause (hline hl hf)
    refine isLine_evaluation (isLine_unresolved hdotted hcause) ?_
    rintro _ ⟨⟩
    exact hdotted
  next => exact h

section

variable {F : Fault → Prop} (hF : ∀ fault, fault.IsShallow sound lined → F fault) {x : Expander σ}
include hF

/-- A reference fails as an operation does, or as the rule that it is expanded to. -/
theorem failsIn_readReference (hσ : sound → DrawsShares σ) {target : Reference}
    (ht : sound → target.path ≠ []) (hkeys : lined → ∀ key ∈ target.path, Text.IsLine key)
    {c : Context σ} (hcauses : lined → ∀ cause,
      Value.resolve ["$$"] c.knowledge target.path = .error cause → Text.IsLine cause.message)
    (hx : ∀ name ∈ target.path, FailsIn F (x.expandNamed name c)) :
    FailsIn F (readReference x target c) := by
  unfold readReference
  split
  next hnil => exact failsIn_mono (Shallow.unforeseen rfl rfl fun hs => absurd hnil (ht hs)) hF
  next name path hpath =>
    have hvariable := failsIn_mono
      (shallow_blameReference hkeys (shallow_readVariable name path c (hpath ▸ hkeys))) hF
    split
    · exact failsIn_mono
        (shallow_blameReference hkeys (shallow_readKnowledge hσ target.path c hcauses)) hF
    · dsimp only
      split
      · refine failsIn_bind (hx name (hpath ▸ List.mem_cons_self)) fun expanded => ?_
        cases expanded with
        | some outcome => exact failsIn_ok outcome
        | none => exact hvariable
      · exact hvariable

omit [DrawSource σ] in
theorem failsIn_readRule {name : String} (hname : lined → Text.IsLine name) {c : Context σ}
    (hx : FailsIn F (x.expandNamed name c)) : FailsIn F (readRule x name c) := by
  unfold readRule
  split
  next value _ => exact failsIn_bind (failsIn_mono value.shallow_coerce hF) fun _ => failsIn_ok _
  next =>
    refine failsIn_bind hx fun expanded => ?_
    cases expanded with
    | some outcome => exact failsIn_ok outcome
    | none =>
      refine failsIn_mono (Shallow.evaluation rfl rfl (fun hl => isLine_undefined (hname hl))
        fun hl => ?_) hF
      rintro _ ⟨⟩
      exact (Text.isLine_append _ _).mpr ⟨by simp [Text.IsLine], hname hl⟩

end

/-! ### Assignments -/

omit [DrawSource σ] in
theorem shallow_assignKnowledge {target : Reference} (ht : sound → target.path ≠ [])
    (hkeys : lined → ∀ key ∈ target.path, Text.IsLine key)
    {op : AssignOp} (hop : sound → op.isKnown = true) (value : Value) {c : Context σ}
    (hc : sound → c.HoldsObject) : Shallow sound lined (assignKnowledge target op value c) := by
  unfold assignKnowledge
  dsimp only
  split
  all_goals
    refine failsIn_bind (by first | exact value.shallow_coerce | exact failsIn_ok value)
      fun assigned => ?_
    refine failsIn_bind (Value.shallow_write hop assigned (fun hl => isLine_dotted (hkeys hl)) _ ht
      hkeys c.knowledge hc) fun written => ?_
    refine failsIn_bind assigned.shallow_inspect fun _ => ?_
    exact failsIn_bind written.1.shallow_inspect fun _ => failsIn_ok _

omit [DrawSource σ] in
theorem shallow_assignVariable {target : Reference} (ht : sound → target.path ≠ [])
    (hkeys : lined → ∀ key ∈ target.path, Text.IsLine key)
    {op : AssignOp} (hop : sound → op.isKnown = true) (value : Value) (c : Context σ) :
    Shallow sound lined (assignVariable target op value c) := by
  have hdotted : lined → Text.IsLine target.dotted := fun hl => isLine_dotted (hkeys hl)
  unfold assignVariable
  split
  next hnil => exact Shallow.unforeseen rfl rfl fun hs => absurd hnil (ht hs)
  next => exact failsIn_bind (Value.shallow_update hop _ value hdotted) fun _ => failsIn_ok _
  next name path hpath hne =>
    have hkeys' : lined → Text.IsLine name ∧ ∀ key ∈ path, Text.IsLine key :=
      fun hl => List.forall_mem_cons.mp (hne ▸ hkeys hl)
    have hroot := Knowledge.shallow_write hop value hdotted path (fun _ => hpath)
      fun hl => (hkeys' hl).2
    dsimp only
    split
    · refine failsIn_bind (failsIn_ok []) fun root => ?_
      exact failsIn_bind (hroot root) fun _ => failsIn_ok _
    next entries _ =>
      refine failsIn_bind (failsIn_ok entries) fun root => ?_
      exact failsIn_bind (hroot root) fun _ => failsIn_ok _
    · refine Shallow.evaluation rfl rfl
        (fun hl => isLine_assignThroughVariable (hkeys' hl).1) fun hl => ?_
      rintro _ ⟨⟩
      exact hdotted hl

omit [DrawSource σ] in
theorem shallow_assign {target : Reference} (ht : sound → target.path ≠ [])
    (hkeys : lined → ∀ key ∈ target.path, Text.IsLine key) {op : AssignOp}
    (hop : sound → op.isKnown = true) (value : Value) {c : Context σ}
    (hc : sound → c.HoldsObject) : Shallow sound lined (assign target op value c) := by
  unfold assign
  split
  · exact shallow_assignKnowledge ht hkeys hop value hc
  · exact shallow_assignVariable ht hkeys hop value c

omit [DrawSource σ] in
theorem shallow_appendValue (output : String) (value : Value) :
    Shallow sound lined (appendValue output value) := by
  unfold appendValue
  split
  · exact failsIn_ok _
  · exact failsIn_ok _
  · exact failsIn_bind value.shallow_display fun _ => failsIn_ok _

/-- Weights that are numbers have a sum, so one of the alternatives is picked. -/
theorem Rule.shallow_pick? {r : Rule}
    (hr : sound → ∀ a ∈ r.alternatives, a.weight.isNumber = true) (draws : σ) :
    Shallow sound lined (r.pick? draws) := by
  have hweights : sound → ∀ w ∈ r.alternatives.map Alternative.weight, w.isNumber = true := by
    intro hs w hw
    obtain ⟨a, ha, rfl⟩ := List.mem_map.mp hw
    exact hr hs a ha
  unfold Rule.pick?
  split
  · exact failsIn_ok _
  · exact failsIn_bind (Selection.shallow_weightedIndex hweights _) fun _ => failsIn_ok _

end

/-! ### Nodes -/

/-- Whether rules are expanded by name without internal faults where the knowledge is an object. -/
def Expander.Foresees (x : Expander σ) : Prop :=
  ∀ name c, c.HoldsObject → Foreseen (x.expandNamed name c)

variable {x : Expander σ}

theorem Reference.path_of_isPath {r : Reference} (h : r.isPath = true) : r.path ≠ [] := by
  intro hnil
  rw [isPath, hnil] at h
  cases h

mutual

/-- A node that fits its place evaluates without internal faults where the knowledge is an
object. Only the second branch of a conditional can be missing, and then it is not evaluated. -/
theorem foreseen_thread (hσ : DrawsShares σ) (hx : x.Foresees)
    (hgrows : x.Keeps Context.Grows fun _ => True) :
    (n : Node) → (place : Place) → (asBranch : Bool) → (c : Context σ) → n.fits place = true →
      (place = .otherwise → n.isMissing = false) → c.HoldsObject →
      Foreseen (n.thread x asBranch c)
  | .literal _, _, _, _, _, _, _ => failsIn_ok _
  | .rule name, _, _, c, _, _, hc =>
    failsIn_readRule (fun _ => Fault.IsShallow.foreseen) nofun (hx name c hc)
  | .reference target, _, _, c, hf, _, hc =>
    failsIn_readReference (fun _ => Fault.IsShallow.foreseen) (fun _ => hσ)
      (fun _ => Reference.path_of_isPath hf) nofun nofun fun name _ => hx name c hc
  | .assign target op expression, _, _, c, hf, _, hc => by
    simp only [Node.fits, Bool.and_eq_true] at hf
    obtain ⟨⟨ht, hop⟩, hexpression⟩ := hf
    refine failsIn_bind_ok (foreseen_thread hσ hx hgrows expression .expression false c
      hexpression nofun hc) fun e he => ?_
    exact (shallow_assign (fun _ => Reference.path_of_isPath ht) nofun (fun _ => hop) e.value
      fun _ => (thread_grows hgrows he).holdsObject hc).foreseen
  | .binary left op right, _, _, c, hf, _, hc => by
    simp only [Node.fits, Bool.and_eq_true] at hf
    obtain ⟨⟨hleft, hop⟩, hright⟩ := hf
    refine failsIn_bind_ok (foreseen_thread hσ hx hgrows left .operand false c hleft
      nofun hc) fun l hl => ?_
    refine failsIn_bind (foreseen_thread hσ hx hgrows right .operand false l.context hright
      nofun ((thread_grows hgrows hl).holdsObject hc))
      fun r => ?_
    have hvalue := (BinaryOp.shallow_apply (fun _ => hop) l.value r.value).foreseen
    exact failsIn_bind hvalue fun _ => failsIn_ok _
  | .conditional condition whenTrue whenFalse, _, _, c, hf, _, hc => by
    simp only [Node.fits, Bool.and_eq_true] at hf
    obtain ⟨⟨hcondition, hwhenTrue⟩, hwhenFalse⟩ := hf
    refine failsIn_bind_ok (foreseen_thread hσ hx hgrows condition .expression false c hcondition
      nofun hc) fun test htest => ?_
    have htc := (thread_grows hgrows htest).holdsObject hc
    split
    · exact foreseen_thread hσ hx hgrows whenTrue .branch true test.context hwhenTrue
        nofun htc
    · split
      · exact failsIn_ok _
      next hm =>
        exact foreseen_thread hσ hx hgrows whenFalse .otherwise true test.context hwhenFalse
          (fun _ => Bool.eq_false_iff.mpr hm) htc
  | .silent expression, _, _, c, hf, _, hc =>
    failsIn_bind (foreseen_thread hσ hx hgrows expression .expression false c hf
      nofun hc) fun _ => failsIn_ok _
  | .group members prose, place, asBranch, c, hf, _, hc => by
    simp only [Node.fits, Bool.and_eq_true] at hf
    cases asBranch with
    | true => exact foreseen_threadText hσ hx hgrows members "" c hf.2 hc
    | false => exact foreseen_threadList hσ hx hgrows members (.text "") c hf.2 hc
  | .alternative _, _, _, _, hf, _, _ => by cases hf
  | .definition _, _, _, _, hf, _, _ => by cases hf
  | .missing, _, _, _, hf, hm, _ => nomatch hm (of_decide_eq_true hf)

theorem foreseen_threadText (hσ : DrawsShares σ) (hx : x.Foresees)
    (hgrows : x.Keeps Context.Grows fun _ => True) :
    (ns : List Node) → (output : String) → (c : Context σ) → fitAll ns = true → c.HoldsObject →
      Foreseen (threadText x ns output c)
  | [], _, _, _, _ => failsIn_ok _
  | n :: rest, output, c, hf, hc => by
    simp only [fitAll, Bool.and_eq_true] at hf
    refine failsIn_bind_ok (foreseen_thread hσ hx hgrows n .expression false c hf.1
      nofun hc) fun o ho => ?_
    refine failsIn_bind (shallow_appendValue output o.value).foreseen fun output => ?_
    exact foreseen_threadText hσ hx hgrows rest output o.context hf.2
      ((thread_grows hgrows ho).holdsObject hc)

theorem foreseen_threadList (hσ : DrawsShares σ) (hx : x.Foresees)
    (hgrows : x.Keeps Context.Grows fun _ => True) :
    (ns : List Node) → (last : Value) → (c : Context σ) → fitAll ns = true → c.HoldsObject →
      Foreseen (threadList x ns last c)
  | [], _, _, _, _ => failsIn_ok _
  | n :: rest, _, c, hf, hc => by
    simp only [fitAll, Bool.and_eq_true] at hf
    refine failsIn_bind_ok (foreseen_thread hσ hx hgrows n .expression false c hf.1
      nofun hc) fun o ho => ?_
    exact foreseen_threadList hσ hx hgrows rest o.value o.context hf.2
      ((thread_grows hgrows ho).holdsObject hc)

end

/-! ### Rules -/

theorem DepthLimit.foreseen_fault (l : DepthLimit) (rule : String) :
    (l.fault rule).isForeseen = true := rfl

theorem Rule.fits_facts {r : Rule} (h : r.fits = true) :
    r.alternatives.isEmpty = false ∧
      ∀ a ∈ r.alternatives, fitAll a.elements = true ∧ a.weight.isNumber = true := by
  simp only [Rule.fits, Bool.and_eq_true, List.all_eq_true, Bool.not_eq_true'] at h
  refine ⟨h.1, fun a ha => ?_⟩
  have hfits := h.2 a ha
  simp only [Alternative.fits, Bool.and_eq_true] at hfits
  obtain ⟨⟨⟨⟨helements, _⟩, _⟩, _⟩, hweight⟩ := hfits
  refine ⟨helements, ?_⟩
  split at hweight
  next hfloat =>
    rw [hfloat]
    rfl
  next => cases hweight

theorem Grammar.fits_of_rule? {g : Grammar} (hg : g.fits = true) {name : String} {r : Rule}
    (h : g.rule? name = some r) : r.fits = true := by
  simp only [fits, Bool.and_eq_true, List.all_eq_true] at hg
  exact (hg.2 _ (Table.mem_of_get? h)).2

omit [DrawSource σ] in
theorem Grammar.expanderBy_foresees {g : Grammar} (hg : g.fits = true)
    {expand : Rule → Context σ → Except Fault (Outcome σ)}
    (h : ∀ r c, r.fits = true → c.HoldsObject → Foreseen (expand r c)) :
    (g.expanderBy expand).Foresees := by
  intro name c hc
  simp only [Grammar.expanderBy]
  split
  next => exact failsIn_ok none
  next r hr => exact failsIn_bind (h r c (Grammar.fits_of_rule? hg hr) hc) fun _ => failsIn_ok _

/-- A rule that fits expands without internal faults, by induction on the levels left. -/
theorem Rule.foreseen_thread (hσ : DrawsShares σ) {g : Grammar} (hg : g.fits = true)
    (l : DepthLimit) (levels : Nat) (r : Rule) (c : Context σ) (hr : r.fits = true)
    (hc : c.HoldsObject) : Foreseen (r.thread g l levels c) := by
  induction levels generalizing r c with
  | zero =>
    unfold Rule.thread
    rw [(Rule.fits_facts hr).1]
    exact failsIn_error (l.foreseen_fault r.name)
  | succ levels ih =>
    unfold Rule.thread
    rw [(Rule.fits_facts hr).1]
    have hpick : Shallow True False (r.pick? c.draws) :=
      Rule.shallow_pick? (fun _ a ha => ((Rule.fits_facts hr).2 a ha).2) c.draws
    refine failsIn_bind_ok hpick.foreseen fun picked hpicked => ?_
    obtain ⟨alternative, draws⟩ := picked
    have hx : (g.expanderBy fun rule c => rule.thread g l levels c : Expander σ).Foresees :=
      Grammar.expanderBy_foresees hg ih
    have hgrows := threader_grows (σ := σ) g l levels
    cases alternative with
    | none => exact failsIn_ok _
    | some a =>
      have ha := (Rule.fits_facts hr).2 a (Rule.elements_of_pick? hpicked a rfl)
      exact foreseen_threadText hσ hx hgrows a.elements "" _ ha.1 hc

theorem text_of_threadText {x : Expander σ} {ns : List Node} {output : String}
    {c : Context σ} {o : Outcome σ} (h : threadText x ns output c = .ok o) :
    ∃ s, o.value = .text s := by
  induction ns generalizing output c with
  | nil =>
    cases h
    exact ⟨output, rfl⟩
  | cons n rest ih =>
    obtain ⟨first, _, h⟩ := (bind_ok_iff _ _ _).mp h
    obtain ⟨output, _, h⟩ := (bind_ok_iff _ _ _).mp h
    exact ih h

theorem Rule.text_of_thread {g : Grammar} {l : DepthLimit} {levels : Nat} {r : Rule}
    {c : Context σ} {o : Outcome σ} (h : r.thread g l levels c = .ok o) :
    ∃ s, o.value = .text s := by
  unfold Rule.thread at h
  split at h
  · cases h
  · split at h
    · cases h
    · obtain ⟨picked, _, h⟩ := (bind_ok_iff _ _ _).mp h
      exact text_of_threadText h

/-! ### Executions -/

theorem Grammar.foreseen_run (hσ : DrawsShares σ) {g : Grammar} (hg : g.fits = true)
    (l : DepthLimit) (c : Context σ) (hc : c.HoldsObject) : Foreseen (g.run l c) := by
  unfold Grammar.run
  split
  next => exact failsIn_error rfl
  next r hr =>
    rw [expand_thread g l _ r c hc]
    exact Rule.foreseen_thread hσ hg l _ r c (Grammar.fits_of_rule? hg hr) hc

theorem Grammar.run_ok {g : Grammar} {l : DepthLimit} {c : Context σ} (hc : c.HoldsObject)
    {o : Outcome σ} (h : g.run l c = .ok o) : (∃ s, o.value = .text s) ∧ o.context.HoldsObject := by
  obtain ⟨r, _, h⟩ := Grammar.thread_of_run hc h
  have hgrows : c.Grows o.context :=
    Rule.thread_keeps Context.grows_keptBySteps g (fun _ _ => trivial) l _ (fun _ _ => trivial) h
  exact ⟨Rule.text_of_thread h, hgrows.holdsObject hc⟩

omit [DrawSource σ] in
theorem Generator.failsIn_finish {F : Fault → Prop} {seed : Value} {o : Outcome σ}
    (hvalue : FailsIn F o.value.display) (hseed : FailsIn F seed.inspect) :
    FailsIn F (finish seed o) := by
  have hrest : ∀ output : Value, FailsIn F (do
      let _ ← seed.inspect
      return ⟨output, o.context.knowledge⟩ : Except Fault Execution) := fun _ =>
    failsIn_bind hseed fun _ => failsIn_ok _
  unfold finish
  split
  · exact failsIn_bind (failsIn_map _ hvalue) hrest
  · exact failsIn_bind (failsIn_ok _) hrest

theorem foreseen_executeWith (hσ : DrawsShares σ) (g : Generator) (hg : g.grammar.fits = true)
    (k : Knowledge) (seed : Value) (draws : σ) :
    Foreseen (g.executeWith (.object k) seed draws) := by
  rw [executeWith_object]
  refine failsIn_bind (Grammar.foreseen_run hσ hg _ _ ⟨k, rfl⟩) fun o => ?_
  exact Generator.failsIn_finish o.value.shallow_display.foreseen seed.shallow_inspect.foreseen

theorem executeWith_ok {g : Generator} {k : Knowledge} {seed : Value} {draws : σ} {e : Execution}
    (h : g.executeWith (.object k) seed draws = .ok e) : ∃ s k', e = ⟨.text s, .object k'⟩ := by
  rw [executeWith_object] at h
  obtain ⟨o, ho, h⟩ := (bind_ok_iff _ _ _).mp h
  obtain ⟨⟨s, hs⟩, k', hk'⟩ := Grammar.run_ok ⟨k, rfl⟩ ho
  rw [hs] at h
  obtain ⟨output, houtput, h⟩ := (bind_ok_iff _ _ _).mp h
  obtain ⟨_, _, h⟩ := (bind_ok_iff _ _ _).mp h
  cases houtput
  cases h
  exact ⟨s, k', by rw [hk']⟩

/-- Whether an execution gives a text and leaves an object, or fails in a foreseen way. -/
def EndsForeseen (r : Except Fault Execution) : Prop :=
  (∃ s k, r = .ok ⟨.text s, .object k⟩) ∨ ∃ fault, r = .error fault ∧ fault.isForeseen = true

theorem endsForeseen_executeWith (hσ : DrawsShares σ) (g : Generator) (hg : g.grammar.fits = true)
    (k : Knowledge) (seed : Value) (draws : σ) :
    EndsForeseen (g.executeWith (.object k) seed draws) := by
  cases h : g.executeWith (.object k) seed draws with
  | ok e =>
    obtain ⟨s, k', rfl⟩ := executeWith_ok h
    exact .inl ⟨s, k', rfl⟩
  | error fault => exact .inr ⟨fault, rfl, foreseen_executeWith hσ g hg k seed draws fault h⟩

/-- An execution of a grammar that was read from a text, under any limit on the nesting of the text,
on any object of knowledge, with any settings and any integer for a seed, gives a text and leaves an
object, or fails in a foreseen way. So does an execution on a stack, unless the stack has no room for
the calls that copy the knowledge. -/
theorem execute_foreseen (source : String) (ts : List Token) (depth : Nat) (g : Grammar)
    (hscan : Token.scan source = .ok ts) (hread : (Reading.ofTokens depth ts).grammar = .ok g)
    (settings : Settings) (k : Knowledge) (seed fresh : Int) :
    EndsForeseen ((Generator.mk g settings).execute (.object k) (.int seed) fresh) ∧
      ∀ stack,
        ((Value.object k).copyCalls < stack →
          EndsForeseen ((Generator.mk g settings).executeOn stack (.object k) (.int seed) fresh)) ∧
        (stack ≤ (Value.object k).copyCalls →
          (Generator.mk g settings).executeOn stack (.object k) (.int seed) fresh =
            .error (.stack .copying)) := by
  have hfits := fits_of_reading source ts depth g hscan hread
  have hplain := endsForeseen_executeWith drawsShares_seededRandom ⟨g, settings⟩ hfits k
    (.int seed) (SeededRandom.ofSeed seed)
  refine ⟨hplain, fun stack => ?_⟩
  have hexecute : (Generator.mk g settings).executeOn stack (.object k) (.int seed) fresh =
      (Generator.mk g settings).executeWithOn stack (.object k) (.int seed)
        (SeededRandom.ofSeed seed) := rfl
  rw [hexecute]
  rcases (Generator.mk g settings).executeWithOn_cases stack k (.int seed)
    (SeededRandom.ofSeed seed) with ⟨hsmall, h⟩ | ⟨hlarge, h | h⟩
  · exact ⟨fun _ => by omega, fun _ => h⟩
  · exact ⟨fun _ => h ▸ hplain, fun _ => by omega⟩
  · exact ⟨fun _ => .inr ⟨_, h, rfl⟩, fun _ => by omega⟩

/-- A text that selects from a list, adds to whatever stands under a key, and divides by it. -/
def Text.tavern : String :=
  "$start := $guest has [$$.purse -= $$.price] or [$$.purse / $$.price] ::2 | [$$.purse += $guest]" ++
    "\n$guest := $$.guests | stranger"

theorem execute_foreseen_tavern :
    ∃ ts g, Token.scan Text.tavern = .ok ts ∧ (Reading.ofTokens 5 ts).grammar = .ok g ∧
      ∀ seed : Int, EndsForeseen ((Generator.mk g .standard).executeOn Stack.standard
        (.object [("purse", .text "12"), ("price", .list [.weighted (.int 3) 2, .null]),
          ("guests", .object [])]) (.int seed) 0) := by
  have hreads : (Token.scan Text.tavern >>= fun ts =>
      (Reading.ofTokens 5 ts).grammar).isOk = true := by decide +kernel
  cases h : Token.scan Text.tavern >>= fun ts => (Reading.ofTokens 5 ts).grammar with
  | error fault =>
    rw [h] at hreads
    cases hreads
  | ok g =>
    obtain ⟨ts, hscan, hread⟩ := (bind_ok_iff _ _ _).mp h
    exact ⟨ts, g, hscan, hread, fun seed =>
      ((execute_foreseen Text.tavern ts 5 g hscan hread .standard _ seed 0).2 _).1 (by decide)⟩

/-- Objects inside of each other, a number of them around an empty one. -/
def Value.nest : Nat → Value
  | 0 => .object []
  | n + 1 => .object [("a", nest n)]

theorem Value.copyCalls_nest (n : Nat) : (nest n).copyCalls = 2 * n + 2 := by
  induction n with
  | zero => rfl
  | succ n ih =>
    show max (nest n).copyCalls 0 + 2 = 2 * (n + 1) + 2
    rw [ih]
    omega

/-- Nested objects are too much for every stack that has not room for two calls for each of them. -/
theorem executeOn_nest (g : Generator) {n stack : Nat} (h : stack ≤ 2 * n + 4) (seed fresh : Int) :
    g.executeOn stack (Value.nest (n + 1)) (.int seed) fresh = .error (.stack .copying) := by
  have hcalls : (Value.object [("a", Value.nest n)]).copyCalls = 2 * (n + 1) + 2 :=
    Value.copyCalls_nest (n + 1)
  rcases g.executeWithOn_cases stack [("a", Value.nest n)] (.int seed)
    (SeededRandom.ofSeed seed) with ⟨_, hcopying⟩ | ⟨hlarge, _⟩
  · exact hcopying
  · omega

/-- On 600 nested objects the text `hi` is not given, and the fault is none of the foreseen ones. -/
theorem execute_nested :
    ∃ ts g, Token.scan "$start := hi" = .ok ts ∧ (Reading.ofTokens 5 ts).grammar = .ok g ∧
      (Generator.mk g .standard).executeOn Stack.standard (Value.nest 600) (.int 0) 0 =
        .error (.stack .copying) ∧
      ¬EndsForeseen
        ((Generator.mk g .standard).executeOn Stack.standard (Value.nest 600) (.int 0) 0) := by
  have hreads : (Token.scan "$start := hi" >>= fun ts =>
      (Reading.ofTokens 5 ts).grammar).isOk = true := by decide +kernel
  cases h : Token.scan "$start := hi" >>= fun ts => (Reading.ofTokens 5 ts).grammar with
  | error fault =>
    rw [h] at hreads
    cases hreads
  | ok g =>
    obtain ⟨ts, hscan, hread⟩ := (bind_ok_iff _ _ _).mp h
    have hgivenUp : (Generator.mk g .standard).executeOn Stack.standard (Value.nest 600) (.int 0) 0 =
        .error (.stack .copying) := executeOn_nest (n := 599) _ (by decide) 0 0
    refine ⟨ts, g, hscan, hread, hgivenUp, ?_⟩
    rw [hgivenUp]
    rintro (⟨s, k, heq⟩ | ⟨fault, heq, hforeseen⟩)
    · cases heq
    · cases heq
      cases hforeseen

end ProseGrammar
