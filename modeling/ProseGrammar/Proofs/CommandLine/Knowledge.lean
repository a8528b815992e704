import ProseGrammar.CommandLine.Report
import ProseGrammar.Proofs.Json.Consumed
import ProseGrammar.Proofs.Json.Loaded

/-!
# Knowledge given as text

Knowledge that was written as JSON is loaded as it was, and whatever is loaded could have been
written: so loading, writing and loading again gives what the first loading gave. A stack that has
room for two calls for each object and list that opens in the text is large enough to load it.
-/

namespace ProseGrammar.CommandLine

open Decimal

theorem read_of_reads {v : Value} {s : String} (h : Json.Reads v s) : Json.read s = .ok v := by
  have hskip := h.starts.skipBlanks_append []
  have hread := h.reads s.toList (2 * s.length) (2 * s.toList.length + 2) []
    (by rw [String.length_toList]; omega) (by omega) nofun
  rw [List.append_nil] at hskip hread
  unfold Json.read Json.readOn
  dsimp only
  rw [if_neg h.starts.head_ne, hskip, hread]
  rfl

theorem loadKnowledgeOn_of_room {stack : Nat} {files : Files} {option : Option String}
    (h : ∀ json, knowledgeText files option = .ok (some json) →
      2 * Json.openings json.toList ≤ stack) :
    loadKnowledgeOn stack files option = loadKnowledge files option := by
  refine bind_congr_ok _ _ _ fun json? hjson => ?_
  cases json? with
  | none => rfl
  | some json => exact congrArg (· >>= _) (Json.readOn_of_room (h json hjson))

/-- Whether knowledge is written as a text that, unless it names a file, is loaded as that knowledge,
also on every stack that has room for two calls for each of its objects and lists. -/
def Reloads (files : Files) (k : Knowledge) : Prop :=
  ∃ text, Json.write (.object k) = .ok text ∧
    (files text = .missing → loadKnowledge files (some text) = .ok k ∧
      ∀ stack, 2 * Json.openings text.toList ≤ stack →
        loadKnowledgeOn stack files (some text) = .ok k)

theorem reloads_of_storable {files : Files} {k : Knowledge} (hk : (Value.object k).Storable)
    (hfloats : ∀ x ∈ (Value.object k).floats, SurvivesText x) : Reloads files k := by
  obtain ⟨text, hwrite, hreads⟩ := Json.exists_write (.object k) hk hfloats
  refine ⟨text, hwrite, fun hmissing => ?_⟩
  have hne : text.isEmpty = false := by
    have hpos := hreads.starts.length_pos
    rw [String.isEmpty_eq_false_iff]
    rintro rfl
    exact absurd hpos (by decide)
  have hjson : knowledgeText files (some text) = .ok (some text) := by
    unfold knowledgeText
    dsimp only
    rw [hne, hmissing]
    rfl
  have hload : loadKnowledge files (some text) = .ok k := by
    show (knowledgeText files (some text) >>= _) = _
    rw [hjson]
    show (Json.read text >>= _) = _
    rw [read_of_reads hreads]
    rfl
  refine ⟨hload, fun stack hstack => ?_⟩
  rw [loadKnowledgeOn_of_room, hload]
  intro json heq
  rw [hjson] at heq
  cases heq
  exact hstack

theorem storable_knowledgeText {files : Files} {option : Option String}
    {read : String → Except Fault Knowledge}
    (h : ∀ json, GivesIn (fun k => (Value.object k).Storable) (read json)) :
    GivesIn (fun k => (Value.object k).Storable) (do
      match ← knowledgeText files option with
      | none => return []
      | some json => read json) := by
  refine givesIn_bind (givesIn_true _) fun json? _ => ?_
  cases json? with
  | none =>
    exact givesIn_ok ⟨List.nodup_nil, fun h => List.not_mem_nil ((h "value").mpr (.inl rfl)), trivial⟩
  | some json => exact h json

/-- Knowledge whose doubles survive their texts is loaded from its text as it was, and all that is
loaded, in any room, is such knowledge. -/
theorem loadKnowledge_write (files : Files) :
    (∀ k : Knowledge, (Value.object k).Storable →
      (∀ x ∈ (Value.object k).floats, SurvivesText x) → Reloads files k) ∧
    ∀ (text : Option String) (k : Knowledge),
      (loadKnowledge files text = .ok k ∨ ∃ stack, loadKnowledgeOn stack files text = .ok k) →
      (Value.object k).Storable ∧
        ((∀ x ∈ (Value.object k).floats, SurvivesText x) → Reloads files k) := by
  refine ⟨fun k hk hfloats => reloads_of_storable hk hfloats, fun text k hload => ?_⟩
  have hk : (Value.object k).Storable := by
    rcases hload with hload | ⟨stack, hload⟩
    · exact storable_knowledgeText (fun _ => Json.storable_readKnowledgeOn _ _) k hload
    · exact storable_knowledgeText (fun _ => Json.storable_readKnowledgeOn _ _) k hload
  exact ⟨hk, fun hfloats => reloads_of_storable hk hfloats⟩

/-- Foes, the first of which has a weight, and luck. -/
def encounter : Knowledge :=
  [("foes", .list [.weighted (.text "rat \"Rex\"") 2.5, .object [("value", .int (-40))], .null]),
    ("luck", .float 0.1)]

theorem storable_encounter : (Value.object encounter).Storable := by
  have hweight : 0 < (2.5 : Float) ∧ (Binary64.ofFloat 2.5).isFinite = true := by decide +kernel
  refine ⟨by simp [Table.keys, encounter], fun h => ?_, ⟨⟨hweight.1, hweight.2, trivial⟩,
    ⟨by simp [Table.keys], fun h => ?_, ?_, trivial⟩, trivial, trivial⟩, trivial, trivial⟩
  · exact absurd ((h "value").mpr (.inl rfl)) (by simp [Table.keys, encounter])
  · exact absurd ((h "weight").mpr (.inr rfl)) (by simp [Table.keys])
  · show 40 < digitBound
    exact Nat.lt_of_lt_of_le (by decide : 40 < 10 ^ 2)
      (Nat.pow_le_pow_right (by decide) (by decide))

def encounterText : String :=
  "\x7b\"foes\": [\x7b\"value\": \"rat \\\"Rex\\\"\", \"weight\": 2.5\x7d, " ++
    "\x7b\"value\": -40\x7d, null], \"luck\": 0.1\x7d"

theorem loadKnowledge_write_encounter :
    Json.write (.object encounter) = .ok encounterText ∧
      loadKnowledge (fun _ => .missing) (some encounterText) = .ok encounter ∧
      Reloads (fun _ => .missing) encounter := by
  have hfloats : ∀ x ∈ (Value.object encounter).floats, SurvivesText x := by
    have hlist : (Value.object encounter).floats = [2.5, 0.1] := rfl
    rw [hlist, List.forall_mem_cons, List.forall_mem_singleton]
    exact ⟨fun _ => by decide +kernel, fun _ => by decide +kernel⟩
  have hwrite : Json.write (.object encounter) = .ok encounterText := by decide +kernel
  obtain ⟨hreload, hloaded⟩ := loadKnowledge_write fun _ => .missing
  obtain ⟨written, hwritten, hload⟩ := hreload encounter storable_encounter hfloats
  obtain rfl : encounterText = written := Except.ok.inj (hwrite.symm.trans hwritten)
  have hloads := (hload rfl).1
  exact ⟨hwrite, hloads, (hloaded (some encounterText) encounter (.inl hloads)).2 hfloats⟩

end ProseGrammar.CommandLine
