import ProseGrammar.Proofs.Token.Pieces
import ProseGrammar.Text.Blank

/-!
# Trimming

What trimming leaves of a list of characters is determined: the list is the rest with characters of
the class at both ends, and the rest neither starts nor ends in one.
-/

namespace ProseGrammar.Text

/-- Whether `cs` is `core` with characters of a class at both ends, and `core` has none at its own. -/
structure IsTrimmed (drops : Char → Bool) (cs core : List Char) : Prop where
  margins : ∃ before after, (∀ c ∈ before, drops c = true) ∧ (∀ c ∈ after, drops c = true) ∧
    cs = before ++ core ++ after
  head : ∀ c ∈ core.head?, drops c = false
  last : ∀ c ∈ core.getLast?, drops c = false

variable (drops : Char → Bool)

theorem of_mem_takeWhile (cs : List Char) : ∀ c ∈ cs.takeWhile drops, drops c = true :=
  List.all_eq_true.mp List.all_takeWhile

theorem head_dropWhile (cs : List Char) : ∀ c ∈ (cs.dropWhile drops).head?, drops c = false := by
  intro c hc
  have hhead := List.head?_dropWhile_not drops cs
  rw [Option.mem_def.mp hc] at hhead
  simpa using hhead

theorem isTrimmed_trimBy (cs : List Char) : IsTrimmed drops cs (trimBy drops cs) := by
  have hback : cs.dropWhile drops =
      trimBy drops cs ++ ((cs.dropWhile drops).reverse.takeWhile drops).reverse := by
    rw [trimBy, ← List.reverse_append, List.takeWhile_append_dropWhile, List.reverse_reverse]
  have hmargins : cs = cs.takeWhile drops ++ trimBy drops cs ++
      ((cs.dropWhile drops).reverse.takeWhile drops).reverse := by
    rw [List.append_assoc, ← hback, List.takeWhile_append_dropWhile]
  refine ⟨⟨_, _, of_mem_takeWhile drops cs, ?_, hmargins⟩, ?_, ?_⟩
  · intro c hc
    exact of_mem_takeWhile drops _ c (List.mem_reverse.mp hc)
  · intro c hc
    refine head_dropWhile drops cs c ?_
    rw [hback, List.head?_append, Option.mem_def.mp hc]
    rfl
  · intro c hc
    rw [trimBy, List.getLast?_reverse] at hc
    exact head_dropWhile drops _ c hc

theorem trimBy_of_isTrimmed (cs core : List Char) (h : IsTrimmed drops cs core) :
    trimBy drops cs = core := by
  obtain ⟨⟨before, after, hbefore, hafter, rfl⟩, hhead, hlast⟩ := h
  have hafter' : ∀ c ∈ after.reverse, drops c = true := fun c hc => hafter c (List.mem_reverse.mp hc)
  cases hcore : core with
  | nil =>
    -- nothing stops the first pass before the end
    have hall : ∀ c ∈ before ++ after, drops c = true := fun c hc =>
      (List.mem_append.mp hc).elim (hbefore c) (hafter c)
    have hdrop := Piece.dropWhile_append_stop drops _ [] hall nofun
    rw [List.append_nil] at hdrop
    rw [trimBy, List.append_nil, hdrop]
    rfl
  | cons c cs =>
    have hstart : ∀ d ∈ (core ++ after).head?, drops d = false := by
      intro d hd
      rw [hcore] at hd hhead
      exact hhead d hd
    have hend : ∀ d ∈ core.reverse.head?, drops d = false := by
      rwa [List.head?_reverse]
    rw [← hcore, trimBy, List.append_assoc, Piece.dropWhile_append_stop drops before _ hbefore hstart,
      List.reverse_append, Piece.dropWhile_append_stop drops after.reverse _ hafter' hend,
      List.reverse_reverse]

theorem trimBy_eq_iff (cs core : List Char) : trimBy drops cs = core ↔ IsTrimmed drops cs core := by
  constructor
  · rintro rfl
    exact isTrimmed_trimBy drops cs
  · exact trimBy_of_isTrimmed drops cs core

end ProseGrammar.Text
