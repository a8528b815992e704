import Mathlib.Data.List.Forall2
import ProseGrammar.Proofs.Json.Numbers
import ProseGrammar.Proofs.Json.Strings

/-!
# Values in JSON

A text stands for a value if it is read as that value wherever it is followed by a comma, a closing
bracket or nothing, given room for as many objects and lists as it has characters. The parts of a
list or an object that stand for its items or entries make up a text that stands for the whole.
-/

namespace ProseGrammar.Json

open Decimal

/-! ### Texts that stand for values -/

/-- Whether a text starts a value, so that it is neither skipped nor refused nor taken for the end of
a list. -/
def Starts (cs : List Char) : Prop :=
  ∃ c tail, cs = c :: tail ∧ c ∉ [']', ' ', '\t', '\n', '\r', '\uFEFF']

theorem starts_cons {c : Char} (tail : List Char)
    (hc : c ∉ [']', ' ', '\t', '\n', '\r', '\uFEFF']) : Starts (c :: tail) :=
  ⟨c, tail, rfl, hc⟩

namespace Starts

variable {cs : List Char} (h : Starts cs)
include h

theorem skipBlanks_append (rest : List Char) : skipBlanks (cs ++ rest) = cs ++ rest := by
  obtain ⟨c, tail, rfl, hc⟩ := h
  have hblank : ¬(c == ' ' || c == '\t' || c == '\n' || c == '\r') = true := by
    simp only [List.mem_cons, not_or] at hc
    simp only [Bool.or_eq_true, beq_iff_eq, hc, or_self, not_false_eq_true]
  exact List.dropWhile_cons_of_neg hblank

theorem head_ne : cs.head? ≠ some '\uFEFF' := by
  obtain ⟨c, tail, rfl, hc⟩ := h
  rintro ⟨⟩
  exact hc (by decide)

theorem length_pos : 0 < cs.length := by
  obtain ⟨c, tail, rfl, -⟩ := h
  exact Nat.succ_pos _

end Starts

/-- Whether a text is read as a value wherever it stands, given room and two units of fuel for each
of its characters. -/
structure Reads (v : Value) (s : String) : Prop where
  starts : Starts s.toList
  reads : ∀ text room fuel rest, s.toList.length ≤ room → 2 * s.toList.length ≤ fuel → Stops rest →
    value text room fuel (s.toList ++ rest) = .ok (v, rest)

/-- With room and fuel for its characters there is one unit of each for the value itself. -/
theorem Reads.of_succ {v : Value} {s : String} (hstarts : Starts s.toList)
    (h : ∀ text room fuel rest, s.toList.length ≤ room + 1 → 2 * s.toList.length ≤ fuel + 1 →
      Stops rest → value text (room + 1) (fuel + 1) (s.toList ++ rest) = .ok (v, rest)) :
    Reads v s where
  starts := hstarts
  reads := by
    intro text room fuel rest hroom hfuel hrest
    have hpos := hstarts.length_pos
    obtain ⟨m, rfl⟩ : ∃ m, room = m + 1 := ⟨room - 1, by omega⟩
    obtain ⟨n, rfl⟩ : ∃ n, fuel = n + 1 := ⟨fuel - 1, by omega⟩
    exact h text m n rest hroom hfuel hrest

theorem stops_cons {c : Char} (rest : List Char)
    (hc : c = ',' ∨ c = ']' ∨ c = '\x7d') : Stops (c :: rest) :=
  fun _ hd => Option.some.inj hd ▸ hc

/-! ### Words -/

theorem reads_null : Reads .null "null" :=
  .of_succ (starts_cons _ (by decide)) fun _ _ _ _ _ _ _ => rfl

theorem reads_bool (b : Bool) : Reads (.bool b) (if b then "true" else "false") := by
  cases b with
  | true => exact .of_succ (starts_cons _ (by decide)) fun _ _ _ _ _ _ _ => rfl
  | false => exact .of_succ (starts_cons _ (by decide)) fun _ _ _ _ _ _ _ => rfl

/-! ### Numbers -/

theorem mem_of_isDigit {c : Char} (hc : isDigit c = true) :
    c ∈ ['0', '1', '2', '3', '4', '5', '6', '7', '8', '9'] := by
  simp only [isDigit, Bool.and_eq_true, decide_eq_true_eq] at hc
  have hleast : 48 ≤ c.toNat := hc.1
  have hmost : c.toNat ≤ 57 := hc.2
  have hall : ∀ d : Fin 10, Char.ofNat (48 + d.val) ∈
      ['0', '1', '2', '3', '4', '5', '6', '7', '8', '9'] := by decide
  have hmem := hall ⟨c.toNat - 48, by omega⟩
  rwa [show 48 + (c.toNat - 48) = c.toNat by omega, Char.ofNat_toNat] at hmem

theorem value_of_isDigit {c : Char} (hc : isDigit c = true) (negative : Bool) (text : List Char)
    (room fuel : Nat) (tail : List Char) :
    value text room (fuel + 1) (if negative then '-' :: c :: tail else c :: tail) =
      number text (if negative then '-' :: c :: tail else c :: tail) := by
  -- each of the digits is told apart from the first characters of other values by computation
  have hmem := mem_of_isDigit hc
  simp only [List.mem_cons, List.not_mem_nil, or_false] at hmem
  rcases hmem with rfl | rfl | rfl | rfl | rfl | rfl | rfl | rfl | rfl | rfl <;>
    cases negative <;> rfl

theorem value_of_numeral {f : Form} (hf : f.IsValid) (negative : Bool) (text : List Char)
    (room fuel : Nat) (rest : List Char) :
    value text room (fuel + 1) ((if negative then '-' :: f.chars else f.chars) ++ rest) =
      number text ((if negative then '-' :: f.chars else f.chars) ++ rest) := by
  obtain ⟨c, cs, hchars, hc⟩ := Form.exists_head_chars hf
  have hvalue := value_of_isDigit hc negative text room fuel (cs ++ rest)
  rw [hchars]
  cases negative with
  | true => exact hvalue
  | false => exact hvalue

theorem starts_of_numeral {f : Form} (hf : f.IsValid) (negative : Bool) :
    Starts (if negative then '-' :: f.chars else f.chars) := by
  cases negative with
  | true => exact starts_cons _ (by decide)
  | false =>
    obtain ⟨c, cs, hchars, hc⟩ := Form.exists_head_chars hf
    refine ⟨c, cs, hchars, fun hmem => ?_⟩
    simp only [List.mem_cons, List.not_mem_nil, or_false] at hmem
    rcases hmem with rfl | rfl | rfl | rfl | rfl | rfl <;> cases hc

theorem reads_numeral {f : Form} (hf : f.IsValid) (hzero : f.IsUnpadded) {negative : Bool}
    {n : Number} (hn : Number.ofNumeral (f.numeral negative) = .ok n) {s : String}
    (hs : s.toList = if negative then '-' :: f.chars else f.chars) : Reads (.number n) s := by
  refine .of_succ (by rw [hs]; exact starts_of_numeral hf negative)
    fun text room fuel rest _ _ hrest => ?_
  rw [hs, value_of_numeral hf, Form.number_chars hf hzero negative hrest text, hn]
  rfl

theorem reads_integer {n : Int} {s : String} (h : integerText n = .ok s) : Reads (.int n) s := by
  obtain ⟨negative, f, hchars, hf, hzero, hvalue⟩ := exists_form_integerText h
  exact reads_numeral hf hzero hvalue hchars

theorem reads_float {x : Float} (h : SurvivesText x) : Reads (.float x) (floatText x) := by
  unfold Json.floatText
  cases hx : Binary64.ofFloat x with
  | nan =>
    rw [eq_nan_of_ofFloat hx]
    exact .of_succ (starts_cons _ (by decide)) fun _ _ _ _ _ _ _ => rfl
  | infinity negative =>
    rw [eq_infinity_of_ofFloat hx]
    cases negative with
    | true => exact .of_succ (starts_cons _ (by decide)) fun _ _ _ _ _ _ _ => rfl
    | false => exact .of_succ (starts_cons _ (by decide)) fun _ _ _ _ _ _ _ => rfl
  | finite negative m e =>
    have hfinite : (Binary64.ofFloat x).isFinite = true := by
      rw [hx]
      rfl
    obtain ⟨negative, f, hchars, hf, hzero, hvalue⟩ := exists_form_floatText hfinite h
    exact reads_numeral hf hzero hvalue hchars

/-! ### Texts -/

theorem reads_text (s : String) : Reads (.text s) (stringText s) := by
  obtain ⟨tail, hnil, -⟩ := string_stringText s []
  rw [List.append_nil] at hnil
  refine .of_succ (by rw [hnil]; exact starts_cons _ (by decide)) fun text room fuel rest _ _ _ => ?_
  obtain ⟨tail, htail, hread⟩ := string_stringText s rest
  have hvalue : (string text tail >>= fun read => .ok (.text read.1, read.2)) =
      .ok (Value.text s, rest) := by
    rw [hread]
    rfl
  rw [htail]
  exact hvalue

/-! ### Lists -/

/-- The parts of a list or an object, with commas and spaces between them. -/
def joined (parts : List String) : List Char :=
  (", ".intercalate parts).toList

theorem joined_singleton (part : String) : joined [part] = part.toList := by
  show (", ".intercalate [part]).toList = part.toList
  simp

theorem joined_cons_cons (part next : String) (parts : List String) :
    joined (part :: next :: parts) = part.toList ++ ',' :: ' ' :: joined (next :: parts) := by
  show (", ".intercalate (part :: next :: parts)).toList =
    part.toList ++ ',' :: ' ' :: (", ".intercalate (next :: parts)).toList
  simp [String.toList_intercalate]

theorem starts_joined {part : String} (h : Starts part.toList) (parts : List String) :
    Starts (joined (part :: parts)) := by
  obtain ⟨c, tail, hpart, hc⟩ := h
  cases parts with
  | nil => exact ⟨c, tail, by rw [joined_singleton, hpart], hc⟩
  | cons next parts => exact ⟨c, _, by rw [joined_cons_cons, hpart, List.cons_append], hc⟩

section

variable {text : List Char} {room fuel : Nat}

theorem elements_last {cs rest : List Char} {item : Value}
    (h : value text room fuel cs = .ok (item, ']' :: rest)) :
    elements text room (fuel + 1) cs = .ok ([item], rest) := by
  rw [elements, h]
  rfl

theorem elements_more {cs tail rest : List Char} {item : Value} {items : List Value}
    (h : value text room fuel cs = .ok (item, ',' :: tail))
    (hitems : elements text room fuel (skipBlanks tail) = .ok (items, rest)) :
    elements text room (fuel + 1) cs = .ok (item :: items, rest) := by
  have hrest : (elements text room fuel (skipBlanks tail) >>= fun read =>
      .ok (item :: read.1, read.2)) = .ok (item :: items, rest) := by
    rw [hitems]
    rfl
  rw [elements, h]
  exact hrest

end

theorem elements_joined {items : List Value} {parts : List String}
    (h : List.Forall₂ Reads items parts) (hne : items ≠ []) (text : List Char) (room fuel : Nat)
    (rest : List Char) (hroom : (joined parts).length ≤ room)
    (hfuel : 2 * (joined parts).length + 1 ≤ fuel) :
    elements text room fuel (joined parts ++ ']' :: rest) = .ok (items, rest) := by
  induction h generalizing fuel with
  | nil => exact absurd rfl hne
  | @cons item part items parts hitem hitems ih =>
    obtain ⟨n, rfl⟩ : ∃ n, fuel = n + 1 := ⟨fuel - 1, by omega⟩
    cases hitems with
    | nil =>
      rw [joined_singleton] at hroom hfuel ⊢
      exact elements_last (hitem.reads text room n _ hroom (by omega) (stops_cons rest (by decide)))
    | @cons next nextPart items parts hnext hothers =>
      rw [joined_cons_cons] at hroom hfuel ⊢
      simp only [List.length_append, List.length_cons] at hroom hfuel
      have htail : skipBlanks (' ' :: (joined (nextPart :: parts) ++ ']' :: rest)) =
          joined (nextPart :: parts) ++ ']' :: rest :=
        (starts_joined hnext.starts parts).skipBlanks_append (']' :: rest)
      have hrest := ih (List.cons_ne_nil _ _) n (by omega) (by omega)
      have hvalue := hitem.reads text room n
        (',' :: ' ' :: (joined (nextPart :: parts) ++ ']' :: rest)) (by omega) (by omega)
        (stops_cons _ (by decide))
      rw [← htail] at hrest
      rw [List.append_assoc]
      exact elements_more hvalue hrest

theorem value_list {text : List Char} {room fuel : Nat} {cs tail rest : List Char} {c : Char}
    {items : List Value} (hskip : skipBlanks cs = c :: tail) (hc : c ≠ ']')
    (h : elements text room fuel (c :: tail) = .ok (items, rest)) :
    value text (room + 1) (fuel + 1) ('[' :: cs) = .ok (.list items, rest) := by
  unfold value
  simp only [hskip, Stack.enter_succ]
  split
  next heq => exact absurd (List.cons.inj heq).1 hc
  next =>
    rw [h]
    rfl

theorem reads_list {items : List Value} {parts : List String}
    (h : List.Forall₂ Reads items parts) :
    Reads (.list items) ("[" ++ ", ".intercalate parts ++ "]") := by
  have hchars : ("[" ++ ", ".intercalate parts ++ "]").toList = '[' :: (joined parts ++ [']']) := by
    show _ = '[' :: ((", ".intercalate parts).toList ++ [']'])
    simp
  refine .of_succ (by rw [hchars]; exact starts_cons _ (by decide))
    fun text room fuel rest hroom hfuel _ => ?_
  rw [hchars] at hroom hfuel ⊢
  simp only [List.length_cons, List.length_append, List.length_nil] at hroom hfuel
  rw [List.cons_append, List.append_assoc, List.singleton_append]
  cases h with
  | nil => rfl
  | @cons item part items parts hitem hitems =>
    have hread := elements_joined (.cons hitem hitems) (List.cons_ne_nil _ _) text room fuel rest
      (by omega) (by omega)
    have hstarts := starts_joined hitem.starts parts
    have hskip := hstarts.skipBlanks_append (']' :: rest)
    obtain ⟨c, tail, hjoined, hc⟩ := hstarts
    rw [hjoined] at hread hskip ⊢
    exact value_list hskip (fun heq => hc (heq ▸ List.mem_cons_self)) hread

/-! ### Objects -/

/-- Whether a text is that of a key and of a value, in the way of an entry. -/
def ReadsEntry (entry : String × Value) (part : String) : Prop :=
  ∃ shown, part = stringText entry.1 ++ ": " ++ shown ∧ Reads entry.2 shown

section Members

variable {text : List Char} {room fuel : Nat} {cs tail next rest : List Char} {key : String}
  {v : Value} {entries : List (String × Value)} (hkey : string text cs = .ok (key, ':' :: tail))
include hkey

theorem members_last (hv : value text room fuel (skipBlanks tail) = .ok (v, '\x7d' :: rest)) :
    members text room (fuel + 1) ('"' :: cs) = .ok ([(key, v)], rest) := by
  have hcolon : skipBlanks (':' :: tail) = ':' :: tail := rfl
  have hclose : skipBlanks ('\x7d' :: rest) = '\x7d' :: rest := rfl
  simp only [members, hkey, bind, Except.bind, hcolon, hv, hclose]
  rfl

theorem members_more (hv : value text room fuel (skipBlanks tail) = .ok (v, ',' :: next))
    (hentries : members text room fuel (skipBlanks next) = .ok (entries, rest)) :
    members text room (fuel + 1) ('"' :: cs) = .ok ((key, v) :: entries, rest) := by
  have hcolon : skipBlanks (':' :: tail) = ':' :: tail := rfl
  have hcomma : skipBlanks (',' :: next) = ',' :: next := rfl
  simp only [members, hkey, bind, Except.bind, hcolon, hv, hcomma, hentries]
  rfl

end Members

theorem exists_of_readsEntry {entry : String × Value} {part : String} (h : ReadsEntry entry part)
    (rest : List Char) :
    ∃ cs tail, part.toList ++ rest = '"' :: cs ∧
      (∀ text, string text cs = .ok (entry.1, ':' :: tail)) ∧
      ∀ text room fuel, part.toList.length ≤ room → 2 * part.toList.length ≤ fuel → Stops rest →
        value text room fuel (skipBlanks tail) = .ok (entry.2, rest) := by
  obtain ⟨shown, rfl, hreads⟩ := h
  obtain ⟨cs, hcs, hstring⟩ := string_stringText entry.1 (':' :: ' ' :: (shown.toList ++ rest))
  have hchars : (stringText entry.1 ++ ": " ++ shown).toList =
      (stringText entry.1).toList ++ ':' :: ' ' :: shown.toList := by
    simp [String.toList_append]
  refine ⟨cs, _, ?_, hstring, fun text room fuel hroom hfuel hrest => ?_⟩
  · rw [hchars, ← hcs, List.append_assoc, List.cons_append, List.cons_append]
  · have hskip : skipBlanks (' ' :: (shown.toList ++ rest)) = shown.toList ++ rest :=
      hreads.starts.skipBlanks_append rest
    rw [hchars] at hroom hfuel
    simp only [List.length_append, List.length_cons] at hroom hfuel
    rw [hskip]
    exact hreads.reads text room fuel rest (by omega) (by omega) hrest

theorem head_joined_of_readsEntry {entry : String × Value} {part : String}
    (h : ReadsEntry entry part) (parts : List String) :
    ∃ tail, joined (part :: parts) = '"' :: tail := by
  obtain ⟨cs, -, hcs, -⟩ := exists_of_readsEntry h []
  rw [List.append_nil] at hcs
  cases parts with
  | nil => exact ⟨cs, by rw [joined_singleton, hcs]⟩
  | cons next parts => exact ⟨_, by rw [joined_cons_cons, hcs, List.cons_append]⟩

theorem members_joined {entries : List (String × Value)} {parts : List String}
    (h : List.Forall₂ ReadsEntry entries parts) (hne : entries ≠ []) (text : List Char)
    (room fuel : Nat) (rest : List Char) (hroom : (joined parts).length ≤ room)
    (hfuel : 2 * (joined parts).length + 1 ≤ fuel) :
    members text room fuel (joined parts ++ '\x7d' :: rest) = .ok (entries, rest) := by
  induction h generalizing fuel with
  | nil => exact absurd rfl hne
  | @cons entry part entries parts hentry hentries ih =>
    obtain ⟨n, rfl⟩ : ∃ n, fuel = n + 1 := ⟨fuel - 1, by omega⟩
    -- a comma stands between two entries, and a closing brace behind the last one
    cases hentries with
    | nil =>
      rw [joined_singleton] at hroom hfuel ⊢
      obtain ⟨cs, tail, hcs, hkey, hv⟩ := exists_of_readsEntry hentry ('\x7d' :: rest)
      rw [hcs]
      exact members_last (hkey text) (hv text room n hroom (by omega) (stops_cons rest (by decide)))
    | @cons next nextPart entries parts hnext hothers =>
      rw [joined_cons_cons] at hroom hfuel ⊢
      simp only [List.length_append, List.length_cons] at hroom hfuel
      have htail : skipBlanks (' ' :: (joined (nextPart :: parts) ++ '\x7d' :: rest)) =
          joined (nextPart :: parts) ++ '\x7d' :: rest := by
        obtain ⟨tail, hjoined⟩ := head_joined_of_readsEntry hnext parts
        rw [hjoined]
        rfl
      have hrest := ih (List.cons_ne_nil _ _) n (by omega) (by omega)
      rw [← htail] at hrest
      obtain ⟨cs, tail, hcs, hkey, hv⟩ := exists_of_readsEntry hentry
        (',' :: ' ' :: (joined (nextPart :: parts) ++ '\x7d' :: rest))
      rw [List.append_assoc, List.cons_append, List.cons_append, hcs]
      have hvalue := hv text room n (by omega) (by omega) (stops_cons _ (by decide))
      exact members_more (hkey text) hvalue hrest

theorem reads_braced {entries : List (String × Value)} {parts : List String} {v : Value}
    (h : List.Forall₂ ReadsEntry entries parts) (hv : ∀ room, objectOf room entries = .ok v) :
    Reads v (braced parts) := by
  have hchars : (braced parts).toList = '\x7b' :: (joined parts ++ ['\x7d']) := by
    show ("\x7b" ++ ", ".intercalate parts ++ "\x7d").toList =
      '\x7b' :: ((", ".intercalate parts).toList ++ ['\x7d'])
    simp
  refine .of_succ (by rw [hchars]; exact starts_cons _ (by decide))
    fun text room fuel rest hroom hfuel _ => ?_
  rw [hchars] at hroom hfuel ⊢
  simp only [List.length_cons, List.length_append, List.length_nil] at hroom hfuel
  rw [List.cons_append, List.append_assoc, List.singleton_append]
  cases h with
  | nil =>
    cases hv 0
    rfl
  | @cons entry part entries parts hentry hentries =>
    have hread := members_joined (.cons hentry hentries) (List.cons_ne_nil _ _) text room fuel rest
      (by omega) (by omega)
    obtain ⟨tail, hjoined⟩ := head_joined_of_readsEntry hentry parts
    rw [hjoined, List.cons_append] at hread ⊢
    have hobject : (members text room fuel ('"' :: (tail ++ '\x7d' :: rest)) >>= fun read =>
        objectOf room read.1 >>= fun v => .ok (v, read.2)) = .ok (v, rest) := by
      rw [hread]
      show (objectOf room _ >>= fun v => .ok (v, rest)) = _
      rw [hv]
      rfl
    exact hobject

end ProseGrammar.Json
