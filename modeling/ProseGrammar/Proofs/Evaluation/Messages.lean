import ProseGrammar.Proofs.Evaluation.Faults
import ProseGrammar.Proofs.Evaluation.Parts

/-!
# Messages of evaluations

The message of a failed evaluation may name keys of the knowledge: the one that is missing, those on
the way to it and those that stand beside it. The keys that come to the knowledge and to the
variables in an evaluation are names of the grammar. So if no key has a line break before an
evaluation, none has one after it, and the message of a foreseen fault is one line.
-/

namespace ProseGrammar

open Text

/-! ### Keys without line breaks -/

mutual

/-- Whether no key in a value has a line break, at any depth. -/
def Value.KeysAreLines : Value → Prop
  | .list items => itemKeysAreLines items
  | .object entries => entryKeysAreLines entries
  | .weighted value _ => value.KeysAreLines
  | _ => True

def itemKeysAreLines : List Value → Prop
  | [] => True
  | item :: rest => item.KeysAreLines ∧ itemKeysAreLines rest

def entryKeysAreLines : List (String × Value) → Prop
  | [] => True
  | (key, value) :: rest => IsLine key ∧ value.KeysAreLines ∧ entryKeysAreLines rest

end

theorem itemKeysAreLines_iff (items : List Value) :
    itemKeysAreLines items ↔ ∀ item ∈ items, item.KeysAreLines := by
  induction items with
  | nil => simp [itemKeysAreLines]
  | cons item items ih => rw [itemKeysAreLines, ih, List.forall_mem_cons]

theorem entryKeysAreLines_iff (t : List (String × Value)) :
    entryKeysAreLines t ↔ ∀ entry ∈ t, IsLine entry.1 ∧ entry.2.KeysAreLines := by
  induction t with
  | nil => simp [entryKeysAreLines]
  | cons entry t ih =>
    obtain ⟨key, value⟩ := entry
    rw [entryKeysAreLines, ih, List.forall_mem_cons, and_assoc]

theorem hereditary_keysAreLines : Value.Hereditary Value.KeysAreLines IsLine True where
  null := trivial
  bool _ := trivial
  number _ := trivial
  text _ := trivial
  list items := (itemKeysAreLines_iff items).trans (and_iff_right trivial).symm
  object t := entryKeysAreLines_iff t
  weighted _ _ h := h

/-! ### Paths -/

/-- A path that cannot be followed is blamed on the place it has come to, and on the keys there. -/
theorem Value.isLine_resolve {place path : List String} {current : Value} {cause : EvaluationCause}
    (hplace : ∀ key ∈ place, IsLine key) (hpath : ∀ key ∈ path, IsLine key)
    (hcurrent : current.KeysAreLines) (h : resolve place current path = .error cause) :
    IsLine cause.message := by
  -- each key that is followed is appended to the place, so the place keeps its keys without breaks
  induction path generalizing place current with
  | nil => cases h
  | cons key path ih =>
    obtain ⟨hkey, hrest⟩ := List.forall_mem_cons.mp hpath
    have hshown : IsLine (".".intercalate place) := isLine_intercalate (by simp [IsLine]) hplace
    unfold resolve at h
    dsimp only at h
    split at h
    next entries =>
      have hentries := (entryKeysAreLines_iff entries).mp hcurrent
      split at h
      next =>
        cases h
        refine isLine_missingProperty hkey hshown (isLine_intercalate (by simp [IsLine]) ?_)
        intro other hother
        obtain ⟨entry, hentry, rfl⟩ := List.mem_map.mp hother
        exact (hentries entry hentry).1
      next =>
        cases h
        exact isLine_nullProperty hkey hshown
      next value hvalue =>
        refine ih ?_ hrest (hentries _ (Table.mem_of_get? hvalue)).2 h
        intro other hother
        rcases List.mem_append.mp hother with hother | hother
        · exact hplace other hother
        · exact List.mem_singleton.mp hother ▸ hkey
    next =>
      cases h
      exact isLine_parentNotObject hkey hshown

/-! ### Steps -/

variable {σ : Type}

/-- A context, or what an evaluation ends in, whose keys have no line breaks. -/
abbrev Context.KeysAreLines (c : Context σ) : Prop :=
  c.Holds IsLine Value.KeysAreLines

structure Outcome.KeysAreLines (o : Outcome σ) : Prop where
  value : o.value.KeysAreLines
  context : o.context.KeysAreLines

/-- Whether a computation ends in something of a property, or fails with a message of one line where
the fault is foreseen. -/
structure EndsLined {α : Type} (Q : α → Prop) (r : Except Fault α) : Prop where
  result : ∀ a, r = .ok a → Q a
  message : Lined r

section

variable {α β : Type} {Q : α → Prop} {R : β → Prop}

theorem endsLined_ok {a : α} (h : Q a) : EndsLined Q (.ok a : Except Fault α) :=
  ⟨fun _ heq => Except.ok.inj heq ▸ h, failsIn_ok a⟩

theorem EndsLined.bind {r : Except Fault α} {f : α → Except Fault β} (h : EndsLined Q r)
    (hf : ∀ a, Q a → EndsLined R (f a)) : EndsLined R (r >>= f) where
  result b hb := by
    obtain ⟨a, ha, hb⟩ := (bind_ok_iff _ _ _).mp hb
    exact (hf a (h.result a ha)).result b hb
  message := failsIn_bind_ok h.message fun a ha => (hf a (h.result a ha)).message

theorem Lined.bind {r : Except Fault α} {f : α → Except Fault β} (h : Lined r)
    (hf : ∀ a, r = .ok a → EndsLined R (f a)) : EndsLined R (r >>= f) :=
  EndsLined.bind ⟨fun _ ha => ha, h⟩ hf

end

/-- Whether the rules that names stand for are expanded with messages of one line. -/
def Expander.IsLined (x : Expander σ) : Prop :=
  ∀ name c, IsLine name → c.KeysAreLines →
    EndsLined (fun expanded => ∀ o ∈ expanded, o.KeysAreLines) (x.expandNamed name c)

section

variable {x : Expander σ} {c : Context σ}

theorem endsLined_readRule (hx : x.IsLined) {name : String} (hname : IsLine name)
    (hc : c.KeysAreLines) : EndsLined Outcome.KeysAreLines (readRule x name c) where
  result o h := by
    unfold readRule at h
    split at h
    next value hvalue =>
      obtain ⟨v, hv, h⟩ := (bind_ok_iff _ _ _).mp h
      cases h
      exact ⟨hereditary_keysAreLines.coerce (hc.frame.get? hvalue) hv, hc⟩
    next =>
      obtain ⟨expanded, hexpanded, h⟩ := (bind_ok_iff _ _ _).mp h
      cases expanded with
      | none => cases h
      | some outcome =>
        cases h
        exact (hx name c hname hc).result _ hexpanded _ rfl
  message := failsIn_readRule (fun _ => Fault.IsShallow.lined) (fun _ => hname)
    (hx name c hname hc).message

theorem endsLined_readReference [DrawSource σ] (hx : x.IsLined) {target : Reference}
    (ht : ∀ key ∈ target.path, IsLine key) (hc : c.KeysAreLines) :
    EndsLined Outcome.KeysAreLines (readReference x target c) where
  result o h := by
    unfold readReference at h
    split at h
    next => cases h
    next name path hpath =>
      have hvariable : ∀ o, blameReference target (readVariable name path c) = .ok o →
          o.KeysAreLines := by
        intro o h
        have hread := blameReference_ok h
        refine ⟨hereditary_keysAreLines.readVariable hc hread, ?_⟩
        rw [readVariable_context hread]
        exact hc
      split at h
      next =>
        obtain ⟨hvalue, hcontext⟩ := hereditary_keysAreLines.readKnowledge hc (blameReference_ok h)
        exact ⟨hvalue, hcontext⟩
      next =>
        dsimp only at h
        split at h
        · obtain ⟨expanded, hexpanded, h⟩ := (bind_ok_iff _ _ _).mp h
          cases expanded with
          | none => exact hvariable o h
          | some outcome =>
            cases h
            have hname : IsLine name := ht name (hpath ▸ List.mem_cons_self)
            exact (hx name c hname hc).result _ hexpanded _ rfl
        · exact hvariable o h
  message := by
    refine failsIn_readReference (fun _ => Fault.IsShallow.lined) nofun nofun (fun _ => ht)
      (fun _ cause hcause => ?_) fun name hname => (hx name c (ht name hname) hc).message
    refine Value.isLine_resolve (fun key hkey => ?_) ht hc.knowledge hcause
    rw [List.mem_singleton.mp hkey]
    simp [IsLine]

theorem endsLined_assign {target : Reference} (ht : ∀ key ∈ target.path, IsLine key)
    {op : AssignOp} {value : Value} (hvalue : value.KeysAreLines) (hc : c.KeysAreLines) :
    EndsLined Outcome.KeysAreLines (assign target op value c) where
  result o h := by
    obtain ⟨hstored, hcontext⟩ := hereditary_keysAreLines.assign hc hvalue ht h
    exact ⟨hstored, hcontext⟩
  message := (shallow_assign nofun (fun _ => ht) nofun value nofun).toLined

end

/-! ### Nodes -/

variable [DrawSource σ]

theorem Reference.isLine_of_isPath {r : Reference} (h : r.isPath = true) :
    ∀ key ∈ r.path, IsLine key := by
  simp only [isPath, Bool.and_eq_true, List.all_eq_true] at h
  intro key hkey
  exact isLine_of_isName key (h.2 key hkey)

section

variable {x : Expander σ}

mutual

/-- The names of a node that fits its place have no line breaks, so its evaluation ends with keys
that have none, or with a message of one line. -/
theorem endsLined_thread (hx : x.IsLined) (n : Node) (place : Place) (asBranch : Bool)
    (c : Context σ) (hf : n.fits place = true) (hc : c.KeysAreLines) :
    EndsLined Outcome.KeysAreLines (n.thread x asBranch c) := by
  cases n with
  | literal value =>
    refine endsLined_ok ⟨?_, hc⟩
    cases value <;> trivial
  | rule name => exact endsLined_readRule hx (isLine_of_isName name hf) hc
  | reference target => exact endsLined_readReference hx (Reference.isLine_of_isPath hf) hc
  | assign target op e =>
    simp only [Node.fits, Bool.and_eq_true] at hf
    obtain ⟨⟨ht, -⟩, he⟩ := hf
    refine (endsLined_thread hx e .expression false c he hc).bind fun o ho => ?_
    exact endsLined_assign (Reference.isLine_of_isPath ht) ho.value ho.context
  | binary l op r =>
    simp only [Node.fits, Bool.and_eq_true] at hf
    obtain ⟨⟨hl, -⟩, hr⟩ := hf
    refine (endsLined_thread hx l .operand false c hl hc).bind fun o ho => ?_
    refine (endsLined_thread hx r .operand false o.context hr ho.context).bind fun p hp => ?_
    refine Lined.bind (BinaryOp.shallow_apply nofun o.value p.value).toLined fun value hvalue => ?_
    exact endsLined_ok ⟨hereditary_keysAreLines.apply hvalue, hp.context⟩
  | conditional a b e =>
    simp only [Node.fits, Bool.and_eq_true] at hf
    obtain ⟨⟨ha, hb⟩, he⟩ := hf
    refine (endsLined_thread hx a .expression false c ha hc).bind fun test htest => ?_
    split
    · exact endsLined_thread hx b .branch true test.context hb htest.context
    · split
      · exact endsLined_ok ⟨trivial, htest.context⟩
      · exact endsLined_thread hx e .otherwise true test.context he htest.context
  | silent e =>
    refine (endsLined_thread hx e .expression false c hf hc).bind fun o ho => ?_
    exact endsLined_ok ⟨trivial, ho.context⟩
  | group ns prose =>
    simp only [Node.fits, Bool.and_eq_true] at hf
    cases asBranch with
    | true => exact endsLined_threadText hx ns "" c hf.2 hc
    | false => exact endsLined_threadList hx ns (.text "") c hf.2 trivial hc
  | alternative a => cases hf
  | definition r => cases hf
  | missing => exact ⟨nofun, failsIn_error nofun⟩

theorem endsLined_threadText (hx : x.IsLined) (ns : List Node) (output : String) (c : Context σ)
    (hf : fitAll ns = true) (hc : c.KeysAreLines) :
    EndsLined Outcome.KeysAreLines (threadText x ns output c) := by
  cases ns with
  | nil => exact endsLined_ok ⟨trivial, hc⟩
  | cons n ns =>
    simp only [fitAll, Bool.and_eq_true] at hf
    refine (endsLined_thread hx n .expression false c hf.1 hc).bind fun o ho => ?_
    refine Lined.bind (shallow_appendValue output o.value).toLined fun output _ => ?_
    exact endsLined_threadText hx ns output o.context hf.2 ho.context

theorem endsLined_threadList (hx : x.IsLined) (ns : List Node) (last : Value) (c : Context σ)
    (hf : fitAll ns = true) (hlast : last.KeysAreLines) (hc : c.KeysAreLines) :
    EndsLined Outcome.KeysAreLines (threadList x ns last c) := by
  cases ns with
  | nil => exact endsLined_ok ⟨hlast, hc⟩
  | cons n ns =>
    simp only [fitAll, Bool.and_eq_true] at hf
    refine (endsLined_thread hx n .expression false c hf.1 hc).bind fun o ho => ?_
    exact endsLined_threadList hx ns o.value o.context hf.2 ho.value ho.context

end

end

/-! ### Rules -/

theorem Value.keysAreLines_trimmed {v : Value} (h : v.KeysAreLines) : v.trimmed.KeysAreLines := by
  cases v with
  | text s => trivial
  | _ => exact h

omit [DrawSource σ] in
theorem Grammar.expanderBy_isLined {g : Grammar}
    {expand : Rule → Context σ → Except Fault (Outcome σ)}
    (h : ∀ name r c, g.rule? name = some r → c.KeysAreLines →
      EndsLined Outcome.KeysAreLines (expand r c)) : (g.expanderBy expand).IsLined := by
  intro name c _ hc
  simp only [Grammar.expanderBy]
  split
  next => exact endsLined_ok (by simp)
  next r hr =>
    refine (h name r c hr hc).bind fun o ho => endsLined_ok ?_
    rintro _ ⟨⟩
    exact ⟨Value.keysAreLines_trimmed ho.value, ho.context⟩

theorem DepthLimit.isLine_fault (l : DepthLimit) {rule : String} (h : IsLine rule) :
    IsLine (l.fault rule).message := by
  refine isLine_evaluation (isLine_depthLimit l.limit) ?_
  rintro _ ⟨⟩
  exact (isLine_append _ _).mpr ⟨by simp [IsLine], h⟩

theorem Grammar.isLine_of_rule? {g : Grammar} (hg : g.fits = true) {name : String} {r : Rule}
    (h : g.rule? name = some r) : IsLine r.name := by
  simp only [fits, Bool.and_eq_true, List.all_eq_true] at hg
  obtain ⟨⟨hname, hsame⟩, -⟩ := hg.2 _ (Table.mem_of_get? h)
  rw [beq_iff_eq.mp hsame]
  exact isLine_of_isName name hname

/-- The rules of a grammar that fits expand with messages of one line, by induction on the levels
left. -/
theorem Rule.endsLined_thread {g : Grammar} (hg : g.fits = true) (l : DepthLimit) (levels : Nat)
    {name : String} {r : Rule} {c : Context σ} (hr : g.rule? name = some r) (hc : c.KeysAreLines) :
    EndsLined Outcome.KeysAreLines (r.thread g l levels c) := by
  obtain ⟨halternatives, hfits⟩ := Rule.fits_facts (Grammar.fits_of_rule? hg hr)
  induction levels generalizing name r c with
  | zero =>
    unfold Rule.thread
    rw [halternatives]
    refine ⟨fun a heq => ?_, failsIn_error fun _ => l.isLine_fault (Grammar.isLine_of_rule? hg hr)⟩
    cases heq
  | succ levels ih =>
    unfold Rule.thread
    rw [halternatives]
    refine Lined.bind (Rule.shallow_pick? False.elim c.draws).toLined fun picked hpicked => ?_
    obtain ⟨alternative, draws⟩ := picked
    have hx : (g.expanderBy fun rule c => rule.thread g l levels c : Expander σ).IsLined := by
      refine Grammar.expanderBy_isLined fun name r c hr hc => ?_
      obtain ⟨halternatives, hfits⟩ := Rule.fits_facts (Grammar.fits_of_rule? hg hr)
      exact ih hr hc halternatives hfits
    have hnext : { c with draws }.KeysAreLines := ⟨hc.knowledge, hc.frame⟩
    cases alternative with
    | none => exact endsLined_ok ⟨trivial, hnext⟩
    | some a =>
      have ha := hfits a (Rule.elements_of_pick? hpicked a rfl)
      exact endsLined_threadText hx a.elements "" _ ha.1 hnext

/-! ### Executions -/

end ProseGrammar
