import ProseGrammar.CommandLine.Report
import ProseGrammar.Proofs.Results

/-!
# Batches and single runs

A batch of runs does what its runs do one by one: it prints what they print, up to the first one
that fails, and ends as that one does. Between runs nothing is kept; they have in common the source
text, the knowledge and the options, and their seeds follow each other.
-/

namespace ProseGrammar.CommandLine

/-! ### Loops over runs -/

theorem status_runEnding (fault : Fault) : (runEnding fault).status = 1 := by
  cases fault <;> rfl

theorem batch_of_error {run : Nat → Except Fault String} {i : Nat} {fault : Fault}
    (h : run i = .error fault) (count : Nat) :
    batch run (count + 1) i = ([], runEnding fault) := by
  simp only [batch, h]

theorem batch_of_ok {run : Nat → Except Fault String} {i : Nat} {line : String}
    (h : run i = .ok line) (count : Nat) :
    batch run (count + 1) i =
      (line :: (batch run count (i + 1)).1, (batch run count (i + 1)).2) := by
  simp only [batch, h]

theorem batch_one_congr {run run' : Nat → Except Fault String} {i i' : Nat} (h : run i = run' i') :
    batch run 1 i = batch run' 1 i' := by
  simp only [batch, h]

/-- The lines of a batch are those of its first runs: of all of them, or of those before one that
fails. -/
theorem batch_eq_singles (run : Nat → Except Fault String) (count i : Nat) :
    ∃ k, k ≤ count ∧ (∀ j, j < k → (batch run 1 (i + j)).2 = .success) ∧
      (batch run count i).1 = (List.range k).flatMap (fun j => (batch run 1 (i + j)).1) ∧
      (k = count ∧ (batch run count i).2 = .success ∨
        k < count ∧ (batch run 1 (i + k)).1 = [] ∧
          (batch run count i).2 = (batch run 1 (i + k)).2 ∧ (batch run count i).2.status = 1) := by
  -- a batch is its first run and the batch of the others, which start one later
  induction count generalizing i with
  | zero =>
    refine ⟨0, Nat.le_refl 0, ?_, rfl, .inl ⟨rfl, rfl⟩⟩
    intro j hj
    omega
  | succ count ih =>
    cases h : run i with
    | error fault =>
      have hb := batch_of_error h count
      have hs := batch_of_error h 0
      refine ⟨0, Nat.zero_le _, ?_, ?_, .inr ⟨by omega, ?_, ?_, ?_⟩⟩
      · intro j hj
        omega
      · rw [hb]
        rfl
      · rw [Nat.add_zero, hs]
      · rw [hb, Nat.add_zero, hs]
      · rw [hb]
        exact status_runEnding fault
    | ok line =>
      obtain ⟨k, hk, before, lines, after⟩ := ih (i + 1)
      have hb := batch_of_ok h count
      have hs : batch run 1 i = ([line], .success) := batch_of_ok h 0
      have next : ∀ j, i + (j + 1) = i + 1 + j := by
        intro j
        omega
      refine ⟨k + 1, by omega, ?_, ?_, ?_⟩
      · intro j hj
        cases j with
        | zero => rw [Nat.add_zero, hs]
        | succ j =>
          rw [next j]
          exact before j (by omega)
      · have later : (fun j => (batch run 1 (i + (j + 1))).1) =
            fun j => (batch run 1 (i + 1 + j)).1 := by
          funext j
          rw [next j]
        rw [List.range_succ_eq_map, List.flatMap_cons, List.flatMap_map]
        simp only [hb, lines, Nat.add_zero, hs, List.singleton_append, Nat.succ_eq_add_one, later]
      · rw [next k, hb]
        rcases after with ⟨all, ending⟩ | ⟨some, rest⟩
        · exact .inl ⟨by omega, ending⟩
        · exact .inr ⟨by omega, rest⟩

theorem linesText_flatMap {α : Type} (f : α → List String) (xs : List α) :
    linesText (xs.flatMap f) = String.join (xs.map fun x => linesText (f x)) := by
  induction xs with
  | nil => rfl
  | cons x xs ih =>
    simp only [linesText, List.flatMap_cons, List.map_append, List.map_cons, String.join_append,
      String.join_cons] at ih ⊢
    rw [ih]

/-! ### Grammar files -/

/-- Why a grammar file has no text. -/
inductive Unreadable (files : Files) (file : String) : Fault → Prop
  | directory (h : files file = .directory) : Unreadable files file (.isDirectory file)
  | encoding {bytes : List UInt8} {cause : Text.Utf8Fault} (h : files file = .file bytes)
      (hcause : Text.ofUtf8 bytes = .error cause) : Unreadable files file (.encoding cause)
  | closed {reason : String} (h : files file = .unreadable reason) :
      Unreadable files file (.unreadable file reason)

theorem decodeText_error {bytes : List UInt8} {fault : Fault} (h : decodeText bytes = .error fault) :
    ∃ cause, Text.ofUtf8 bytes = .error cause ∧ fault = .encoding cause := by
  unfold decodeText at h
  split at h
  · cases h
  next cause hcause =>
    cases h
    exact ⟨cause, hcause, rfl⟩

/-- Whether a grammar file has a text. -/
def HasSource (files : Files) (file source : String) : Prop :=
  ∃ bytes, files file = .file bytes ∧ decodeText bytes = .ok source

/-- A grammar file is missing, has no text, or has the text that a command goes on with. -/
theorem withSource_cases (files : Files) (file : String) :
    (files file = .missing ∧
      ∀ next, withSource files file next = .ofEnding (missingFile file)) ∨
    (∃ fault, Unreadable files file fault ∧
      ∀ next, withSource files file next = .ofEnding (.breakdown fault)) ∨
    ∃ source, HasSource files file source ∧ ∀ next, withSource files file next = next source := by
  unfold withSource
  cases h : files file with
  | missing => exact .inl ⟨rfl, fun _ => rfl⟩
  | directory => exact .inr (.inl ⟨_, .directory h, fun _ => rfl⟩)
  | unreadable reason => exact .inr (.inl ⟨_, .closed h, fun _ => rfl⟩)
  | file bytes =>
    cases hd : decodeText bytes with
    | error fault =>
      obtain ⟨cause, hcause, rfl⟩ := decodeText_error hd
      exact .inr (.inl ⟨_, .encoding h hcause, fun _ => by simp only [hd]⟩)
    | ok source => exact .inr (.inr ⟨source, ⟨bytes, h, hd⟩, fun _ => by simp only [hd]⟩)

/-! ### Runs -/

/-- The options of `count` runs, the first of which has the seed `seed`. -/
def RunOptions.runs (options : RunOptions) (seed : Int) (count : Nat) : RunOptions :=
  { options with seed := .number seed, count := count }

theorem executeOn_of_seed (stack : Nat) (g : Generator) (knowledge : Value)
    (seed fresh fresh' : Int) :
    g.executeOn stack knowledge (.int seed) fresh =
      g.executeOn stack knowledge (.int seed) fresh' := by
  unfold Generator.executeOn
  apply bind_congr_ok
  intro k _
  rfl

theorem runOnce_runs (stack : Nat) (g : Generator) (k : Knowledge) (options : RunOptions)
    (seed : Int) (count : Nat) (fresh fresh' : Int) (i : Nat) :
    runOnce stack g k (options.runs seed count) fresh i =
      runOnce stack g k (options.runs (seed + i) 1) fresh' 0 := by
  have hs : seed + (i : Int) + ((0 : Nat) : Int) = seed + i := by omega
  have he : g.executeOn stack (.object k) (.int (seed + i)) (fresh + i) =
      g.executeOn stack (.object k) (.int (seed + i + (0 : Nat))) (fresh' + (0 : Nat)) := by
    rw [hs]
    exact executeOn_of_seed ..
  exact congrArg (fun e => e >>= executionLine stack options.json) he

/-- Before its first run a batch ends, or goes on, without regard to seeds and the count. -/
theorem runGrammar_runs (stack : Nat) (files : Files) (file : String) (options : RunOptions) :
    (∃ r : Report, r.output = "" ∧ r.ending.status = 1 ∧
      ∀ seed count fresh, runGrammar stack files file (options.runs seed count) fresh = r) ∨
    ∃ g k warnings, ∀ seed count fresh,
      runGrammar stack files file (options.runs seed count) fresh =
        ⟨linesText (batch (runOnce stack g k (options.runs seed count) fresh) count 0).1, warnings,
          (batch (runOnce stack g k (options.runs seed count) fresh) count 0).2⟩ := by
  unfold runGrammar
  rcases withSource_cases files file with ⟨_, h⟩ | ⟨fault, _, h⟩ | ⟨source, _, h⟩
  · exact .inl ⟨_, rfl, rfl, fun _ _ _ => h _⟩
  · exact .inl ⟨_, rfl, rfl, fun _ _ _ => h _⟩
  · simp only [h, RunOptions.runs, Int.toNat_natCast]
    cases loadKnowledgeOn stack files options.knowledge with
    | error fault =>
      cases hf : invalidatesKnowledge fault with
      | false => exact .inl ⟨.ofEnding (.breakdown fault), rfl, rfl, fun _ _ _ => by simp [hf]⟩
      | true =>
        exact .inl ⟨.ofEnding (.failure ("Error: Invalid knowledge: " ++ fault.message)), rfl, rfl,
          fun _ _ _ => by simp [hf]⟩
    | ok k =>
      cases Settings.make options.maxDepth .null >>= fun settings =>
          Generator.compile (Reading.ofSource source) settings with
      | error fault =>
        refine .inl ⟨⟨"", _, compileEnding "Lexer Error: " "Parse Error: " fault⟩, rfl, ?_,
          fun _ _ _ => rfl⟩
        cases fault <;> rfl
      | ok g => exact .inr ⟨g, k, _, fun _ _ _ => rfl⟩

/-- A batch is its runs one by one. -/
theorem report_runs (stack : Nat) (files : Files) (file : String) (options : RunOptions) (seed : Int)
    {count : Nat} (hcount : 1 ≤ count) (fresh : Int) (freshOf : Nat → Int) :
    let whole := (Command.run file (options.runs seed count)).report stack files fresh
    let single := fun i : Nat =>
      (Command.run file (options.runs (seed + i) 1)).report stack files (freshOf i)
    ∃ k, k ≤ count ∧ (∀ i, i < k → (single i).ending = .success) ∧
      whole.output = String.join ((List.range k).map fun i => (single i).output) ∧
      (∀ i, whole.warnings = (single i).warnings) ∧
      (k = count ∧ whole.ending = .success ∨
        k < count ∧ (single k).output = "" ∧ whole.ending = (single k).ending ∧
          whole.ending.status = 1) := by
  intro whole single
  rcases runGrammar_runs stack files file options with
    ⟨r, output, status, same⟩ | ⟨g, k, warnings, same⟩
  · have hw : whole = r := same seed count fresh
    have hs : ∀ i, single i = r := fun i => same (seed + i) 1 (freshOf i)
    simp only [hw, hs, output, status]
    refine ⟨0, Nat.zero_le _, ?_, rfl, fun _ => trivial, .inr ⟨hcount, trivial, trivial, trivial⟩⟩
    intro i hi
    omega
  · have hw : whole = _ := same seed count fresh
    let run := runOnce stack g k (options.runs seed count) fresh
    have hs : ∀ i, single i = ⟨linesText (batch run 1 i).1, warnings, (batch run 1 i).2⟩ := by
      intro i
      rw [batch_one_congr (runOnce_runs stack g k options seed count fresh (freshOf i) i)]
      exact same (seed + i) 1 (freshOf i)
    obtain ⟨n, hn, before, lines, after⟩ := batch_eq_singles run count 0
    simp only [Nat.zero_add] at before lines after
    simp only [hw, hs]
    refine ⟨n, hn, before, ?_, fun _ => trivial, ?_⟩
    · rw [lines, linesText_flatMap]
    · rcases after with all | ⟨some, nothing, ending, status⟩
      · exact .inl all
      · refine .inr ⟨some, ?_, ending, status⟩
        rw [nothing]
        rfl

/-- A file with a text that fails where its second alternative is chosen. -/
def Files.unlucky : Files := fun path =>
  if path = "unlucky" then
    .file ("$start := a | [1 / 0]".toList.map fun c => c.toNat.toUInt8)
  else .missing

theorem report_runs_unlucky :
    let whole :=
      (Command.run "unlucky" (RunOptions.standard.runs 1 3)).report Stack.standard Files.unlucky 0
    let single := fun i : Nat =>
      (Command.run "unlucky" (RunOptions.standard.runs (1 + i) 1)).report Stack.standard
        Files.unlucky 0
    whole.output = (single 0).output ∧ whole.ending = (single 1).ending := by
  intro whole single
  obtain ⟨k, _, before, output, _, after⟩ := report_runs Stack.standard Files.unlucky "unlucky"
    RunOptions.standard 1 (show 1 ≤ 3 by decide) 0 (fun _ => 0)
  have h0 : (single 0).ending = .success := by decide +kernel
  have h1 : (single 1).ending ≠ .success := by decide +kernel
  cases k with
  | zero =>
    rcases after with ⟨all, _⟩ | ⟨_, _, ending, status⟩
    · cases all
    · exact absurd (status.symm.trans (congrArg Ending.status (ending.trans h0))) (by decide)
  | succ k =>
    cases k with
    | succ k => exact absurd (before 1 (by omega)) h1
    | zero =>
      rcases after with ⟨all, _⟩ | ⟨_, _, ending, _⟩
      · cases all
      · exact ⟨output.trans (String.join_cons.trans (String.append_empty ..)), ending⟩

end ProseGrammar.CommandLine
