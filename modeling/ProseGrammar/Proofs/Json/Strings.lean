import ProseGrammar.Json.Read
import ProseGrammar.Json.Write

/-!
# Strings in JSON

Every character is written so that it is read back alone, whatever stands after it: quotes,
backslashes and control characters as escapes, every other character as itself.
-/

namespace ProseGrammar.Json

/-! ### Characters -/

theorem hexGroup?_digitChar {n : Nat} (hn : n < 0x20) :
    hexGroup? (Nat.digitChar (n / 16 ^ 3 % 16)) (Nat.digitChar (n / 16 ^ 2 % 16))
      (Nat.digitChar (n / 16 ^ 1 % 16)) (Nat.digitChar (n / 16 ^ 0 % 16)) = some n := by
  have hall : ∀ n : Fin 0x20, hexGroup? (Nat.digitChar (n.val / 16 ^ 3 % 16))
      (Nat.digitChar (n.val / 16 ^ 2 % 16)) (Nat.digitChar (n.val / 16 ^ 1 % 16))
      (Nat.digitChar (n.val / 16 ^ 0 % 16)) = some n.val := by decide +kernel
  exact hall ⟨n, hn⟩

section

variable (text : List Char) (start : Nat)

theorem stringBody_control {c : Char} (hc : c.toNat < 0x20) {tail : List Char} (htail : tail ≠ []) :
    stringBody text start none ('\\' :: 'u' :: Text.hexDigits 4 c.toNat ++ tail) =
      prepend c (stringBody text start none tail) := by
  have hdigits : Text.hexDigits 4 c.toNat =
      [Nat.digitChar (c.toNat / 16 ^ 3 % 16), Nat.digitChar (c.toNat / 16 ^ 2 % 16),
        Nat.digitChar (c.toNat / 16 ^ 1 % 16), Nat.digitChar (c.toNat / 16 ^ 0 % 16)] := rfl
  have hhigh : isHighSurrogate c.toNat = false := by
    simp only [isHighSurrogate, Bool.and_eq_false_iff, decide_eq_false_iff_not]
    omega
  have hlow : isLowSurrogate c.toNat = false := by
    simp only [isLowSurrogate, Bool.and_eq_false_iff, decide_eq_false_iff_not]
    omega
  have hunit := hexGroup?_digitChar hc
  have hmore : ¬tail.isEmpty = true := fun h => htail (List.isEmpty_iff.mp h)
  rw [hdigits]
  simp only [List.cons_append, List.nil_append]
  rw [stringBody.eq_def]
  simp only [unit?, if_neg hmore, hunit, hhigh, hlow, Bool.false_eq_true, if_false,
    Char.ofNat_toNat]

theorem stringBody_plain {c : Char} (hquote : c ≠ '"') (hbackslash : c ≠ '\\')
    (hcontrol : ¬c.toNat < 0x20) (tail : List Char) :
    stringBody text start none (c :: tail) =
      prepend c (stringBody text start none tail) := by
  rw [stringBody]
  · rw [beq_false_of_ne hquote, beq_false_of_ne hbackslash, if_neg hcontrol]
    rfl
  · intro _ _ _ _ _ heq
    exact absurd heq hbackslash
  · intro _ _ heq
    exact absurd heq hbackslash

theorem stringBody_stringChar (c : Char) {tail : List Char} (htail : tail ≠ []) :
    stringBody text start none (stringChar c ++ tail) =
      prepend c (stringBody text start none tail) := by
  unfold stringChar
  split
  case h_8 c hquote hbackslash _ _ _ _ _ =>
    split
    next hcontrol => exact stringBody_control text start hcontrol htail
    next hcontrol => exact stringBody_plain text start hquote hbackslash hcontrol tail
  all_goals rfl

theorem stringBody_flatMap (cs rest : List Char) :
    stringBody text start none (cs.flatMap stringChar ++ '"' :: rest) = .ok (cs, rest) := by
  induction cs with
  | nil => rfl
  | cons c cs ih =>
    rw [List.flatMap_cons, List.append_assoc, stringBody_stringChar text start c (by simp), ih]
    rfl

end

theorem string_stringText (s : String) (rest : List Char) :
    ∃ tail, (stringText s).toList ++ rest = '"' :: tail ∧
      ∀ text, string text tail = .ok (s, rest) := by
  refine ⟨s.toList.flatMap stringChar ++ '"' :: rest, ?_, fun text => ?_⟩
  · simp [stringText]
  · rw [string, stringBody_flatMap]
    exact congrArg (fun body => Except.ok (body, rest)) String.ofList_toList

end ProseGrammar.Json
