import ProseGrammar.Text.Prose

/-!
# Joining text

Joining is associative and the empty text is its identity, so running text can be put together in
any grouping. It is the text of the parts that are not empty, in order, with one space at each
junction that is open.
-/

namespace ProseGrammar.Text

/-! ### Junctions -/

/-- What joining puts between two parts: a space if the left one ends in a character that is no
white space and the right one starts with a character that is not set flush. -/
def junction (left right : String) : String :=
  match left.toList.getLast?, right.toList.head? with
  | some l, some r =>
    if isBlank l ∨ r ∈ ['\n', '.', ',', '!', '?', ';', ':'] then "" else " "
  | _, _ => ""

theorem closesUp_iff (c : Char) :
    closesUp c = true ↔ c ∈ ['\n', '.', ',', '!', '?', ';', ':'] := by
  simp [closesUp, or_assoc]

theorem joinProse_eq (left right : String) :
    joinProse left right = left ++ junction left right ++ right := by
  rw [joinProse, needsSpace, junction, String.back?_eq, String.front?_eq]
  cases left.toList.getLast? with
  | none => simp
  | some l =>
    cases right.toList.head? with
    | none => simp
    | some r =>
      simp only [← closesUp_iff]
      by_cases hl : isBlank l = true
      · simp [hl]
      · by_cases hr : closesUp r = true
        · simp [hr]
        · simp [hl, hr]

theorem junction_append_left (front left right : String) (h : left ≠ "") :
    junction (front ++ left) right = junction left right := by
  have hne : left.toList ≠ [] := by simpa using h
  have hlast : (front ++ left).toList.getLast? = left.toList.getLast? := by
    rw [String.toList_append, List.getLast?_append, List.getLast?_eq_some_getLast hne,
      Option.some_or]
  rw [junction, hlast, junction]

theorem junction_append_right (left right behind : String) (h : right ≠ "") :
    junction left (right ++ behind) = junction left right := by
  have hne : right.toList ≠ [] := by simpa using h
  have hhead : (right ++ behind).toList.head? = right.toList.head? := by
    rw [String.toList_append, List.head?_append, List.head?_eq_some_head hne, Option.some_or]
  rw [junction, hhead, junction]

/-! ### The monoid of texts -/

theorem joinProse_assoc (a b c : String) :
    joinProse (joinProse a b) c = joinProse a (joinProse b c) := by
  by_cases hb : b = ""
  · rw [hb, joinProse_empty_right, joinProse_empty_left]
  · have hright : junction a (joinProse b c) = junction a b := by
      rw [joinProse_eq b c, String.append_assoc]
      exact junction_append_right a b _ hb
    have hleft : junction (joinProse a b) c = junction b c := by
      rw [joinProse_eq a b]
      exact junction_append_left _ b c hb
    rw [joinProse_eq _ c, hleft, joinProse_eq a b, joinProse_eq a (joinProse b c), hright,
      joinProse_eq b c]
    simp only [String.append_assoc]

instance : Std.Associative joinProse := ⟨joinProse_assoc⟩

theorem prose_cons (part : String) (rest : List String) :
    prose (part :: rest) = joinProse part (prose rest) := by
  have hfold : rest.foldl joinProse (joinProse part "") = joinProse part (prose rest) :=
    List.foldl_assoc
  rw [prose, List.foldl_cons, joinProse_empty_left, ← hfold, joinProse_empty_right]

/-! ### Running text -/

/-- Parts one after the other, with what stands at each of their junctions. -/
def running : List String → String
  | [] => ""
  | [part] => part
  | left :: right :: rest => left ++ junction left right ++ running (right :: rest)

theorem running_cons (part : String) (rest : List String) :
    ∃ behind, running (part :: rest) = part ++ behind := by
  cases rest with
  | nil => exact ⟨"", (String.append_empty).symm⟩
  | cons next rest => exact ⟨_, String.append_assoc⟩

/-- Joined parts are those that are not empty, with one space at each open junction. -/
theorem prose_eq_running (parts : List String) :
    prose parts = running (parts.filter fun part => part ≠ "") := by
  induction parts with
  | nil => rfl
  | cons part rest ih =>
    rw [prose_cons, ih]
    by_cases hpart : part = ""
    · rw [List.filter_cons_of_neg (by simpa using hpart), hpart, joinProse_empty_left]
    · rw [List.filter_cons_of_pos (by simpa using hpart)]
      cases hrest : rest.filter fun part => part ≠ "" with
      | nil => exact joinProse_empty_right part
      | cons next others =>
        have hnext : next ≠ "" := by
          have hmem : next ∈ rest.filter fun part => part ≠ "" := by
            rw [hrest]
            exact List.mem_cons_self
          simpa using (List.mem_filter.mp hmem).2
        obtain ⟨behind, hbehind⟩ := running_cons next others
        rw [joinProse_eq, running, hbehind, junction_append_right part next behind hnext]

end ProseGrammar.Text
