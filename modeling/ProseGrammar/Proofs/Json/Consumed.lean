import ProseGrammar.Json.Read
import ProseGrammar.Proofs.Foreseen
import ProseGrammar.Proofs.Growth

/-!
# What reading JSON takes

A reader takes a part from the front of a text and leaves the rest. Each bracket that opens in the
text takes at most two calls, one to read what it opens and one to show that as a weight, so in all
rooms that are large enough for them reading comes to the same. Its faults have their reason in the
text or in the room.
-/

namespace ProseGrammar.Json

open Text

/-! ### Texts -/

/-- The number of brackets in a text that open an object or a list. -/
def openings (cs : List Char) : Nat :=
  cs.countP fun c => c == '\x7b' || c == '['

theorem openings_cons {c : Char} (hc : c = '\x7b' ∨ c = '[') (cs : List Char) :
    openings (c :: cs) = openings cs + 1 := by
  refine List.countP_cons_of_pos ?_
  rcases hc with rfl | rfl <;> rfl

theorem openings_le {cs rest : List Char} (h : rest <:+ cs) : openings rest ≤ openings cs :=
  h.sublist.countP_le

theorem skipBlanks_suffix (cs : List Char) : skipBlanks cs <:+ cs :=
  List.dropWhile_suffix _

/-- What stands behind the first character that is no blank. -/
theorem suffix_of_skipBlanks {cs rest tail : List Char} {c : Char} (h : skipBlanks rest = c :: tail)
    (hrest : rest <:+ cs) : tail <:+ cs := by
  have htail : tail <:+ skipBlanks rest := h ▸ List.suffix_cons c tail
  exact (htail.trans (skipBlanks_suffix rest)).trans hrest

/-- Whether a text has the escape of half of a surrogate pair. -/
def HoldsHalf (unit : Nat) (cs : List Char) : Prop :=
  (isHighSurrogate unit || isLowSurrogate unit) = true ∧
    ∃ a b c d, hexGroup? a b c d = some unit ∧ ['\\', 'u', a, b, c, d] <:+: cs

theorem holdsHalf_mono {unit : Nat} {cs rest : List Char} (h : HoldsHalf unit rest)
    (hrest : rest <:+ cs) : HoldsHalf unit cs := by
  obtain ⟨hunit, a, b, c, d, hgroup, hescape⟩ := h
  exact ⟨hunit, a, b, c, d, hgroup, hescape.trans hrest.isInfix⟩

/-! ### Sizes -/

theorem entryCalls_le_iff (entries : List (String × Value)) (n : Nat) :
    Value.entryCalls ⟨1, 1, 2, 0⟩ entries ≤ n ↔ ∀ entry ∈ entries, entry.2.inspectCalls ≤ n := by
  induction entries with
  | nil => exact ⟨fun _ => nofun, fun _ => Nat.zero_le n⟩
  | cons entry entries ih => rw [Value.entryCalls, Nat.max_le, ih, List.forall_mem_cons]; rfl

/-! ### Faults -/

/-- The faults of reading a text in some room. -/
inductive OfText (room : Nat) (cs : List Char) : Fault → Prop
  | syntactic (cause : JsonCause) (p : Position) (index : Nat) :
      OfText room cs (.jsonSyntax cause p index)
  | integerText (digits : Option Nat) : OfText room cs (.integerText digits)
  | integerRange : OfText room cs .integerRange
  | badWeight {shown : String} (h : IsLine shown) : OfText room cs (.badWeight shown)
  | object (h : room < openings cs) : OfText room cs (.stack .readingObject)
  | list (h : room < openings cs) : OfText room cs (.stack .readingList)
  | showing (h : room < 2 * openings cs) : OfText room cs (.stack .showing)
  | half {unit : Nat} (h : HoldsHalf unit cs) : OfText room cs (.loneSurrogate unit)

theorem OfText.mono {room : Nat} {cs rest : List Char} {fault : Fault}
    (h : OfText room rest fault) (hrest : rest <:+ cs) : OfText room cs fault := by
  have hopenings := openings_le hrest
  cases h with
  | syntactic cause p index => exact .syntactic cause p index
  | integerText digits => exact .integerText digits
  | integerRange => exact .integerRange
  | badWeight h => exact .badWeight h
  | object h => exact .object (Nat.lt_of_lt_of_le h hopenings)
  | list h => exact .list (Nat.lt_of_lt_of_le h hopenings)
  | showing h => exact .showing (by omega)
  | half h => exact .half (holdsHalf_mono h hrest)

/-! ### Readers -/

/-- Whether a computation, in some room, takes something from the front of a text that is no larger
than what opens there, or fails because of the text. -/
structure Consumes {α : Type} (size : α → Nat) (room : Nat) (cs : List Char)
    (r : Except Fault (α × List Char)) : Prop where
  takes : GivesIn (fun read => read.2 <:+ cs ∧ size read.1 ≤ 2 * openings cs) r
  fails : FailsIn (OfText room cs) r

section

variable {α β : Type} {size : α → Nat} {size' : β → Nat} {room : Nat} {cs rest : List Char}

theorem consumes_ok {a : α} (hrest : rest <:+ cs) (hsize : size a ≤ 2 * openings cs) :
    Consumes size room cs (.ok (a, rest)) :=
  ⟨givesIn_ok ⟨hrest, hsize⟩, failsIn_ok _⟩

theorem consumes_error {fault : Fault} (h : OfText room cs fault) :
    Consumes size room cs (.error fault) :=
  ⟨givesIn_error _, failsIn_error h⟩

theorem consumes_fault (text : List Char) (cause : JsonCause) (left : Nat) :
    Consumes size room cs (.error (faultAt text cause left)) :=
  consumes_error (.syntactic _ _ _)

theorem Consumes.mono {r : Except Fault (α × List Char)} (h : Consumes size room rest r)
    (hrest : rest <:+ cs) : Consumes size room cs r where
  takes read hread := by
    obtain ⟨hleft, hsize⟩ := h.takes read hread
    exact ⟨hleft.trans hrest, Nat.le_trans hsize (Nat.mul_le_mul_left 2 (openings_le hrest))⟩
  fails := failsIn_mono h.fails fun _ hfault => hfault.mono hrest

theorem consumes_bind {r : Except Fault (α × List Char)}
    {next : α × List Char → Except Fault (β × List Char)} (h : Consumes size room cs r)
    (hnext : ∀ a rest, rest <:+ cs → size a ≤ 2 * openings cs →
      Consumes size' room cs (next (a, rest))) : Consumes size' room cs (r >>= next) := by
  cases r with
  | error fault => exact consumes_error (h.fails fault rfl)
  | ok read =>
    obtain ⟨hleft, hsize⟩ := h.takes read rfl
    exact hnext read.1 read.2 hleft hsize

/-- A value that is made of what was read, and leaves what reading has left. -/
theorem consumes_made {r : Except Fault α} (hfails : FailsIn (OfText room cs) r) (f : α → β)
    (hsize : GivesIn (fun a => size' (f a) ≤ 2 * openings cs) r) (hrest : rest <:+ cs) :
    Consumes size' room cs (do return (f (← r), rest)) := by
  cases r with
  | error fault => exact consumes_error (hfails fault rfl)
  | ok a => exact consumes_ok hrest (hsize a rfl)

end

/-- Whether a computation takes its part of a text in any room, and comes to the same in all rooms
that are large enough for the brackets of the text. -/
structure Reader {α : Type} (size : α → Nat) (cs : List Char)
    (read : Nat → Except Fault (α × List Char)) : Prop where
  consumes : ∀ room, Consumes size room cs (read room)
  settled : ∀ room room', 2 * openings cs ≤ room → 2 * openings cs ≤ room' → read room = read room'

section

variable {α β : Type} {size : α → Nat} {size' : β → Nat} {cs rest : List Char}

theorem reader_const {r : Except Fault (α × List Char)} (h : ∀ room, Consumes size room cs r) :
    Reader size cs fun _ => r :=
  ⟨h, fun _ _ _ _ => rfl⟩

theorem Reader.mono {read : Nat → Except Fault (α × List Char)} (h : Reader size rest read)
    (hrest : rest <:+ cs) : Reader size cs read where
  consumes room := (h.consumes room).mono hrest
  settled room room' hroom hroom' := by
    have hopenings := openings_le hrest
    exact h.settled room room' (by omega) (by omega)

theorem reader_bind {read : Nat → Except Fault (α × List Char)}
    {next : Nat → α × List Char → Except Fault (β × List Char)} (h : Reader size cs read)
    (hnext : ∀ a rest, rest <:+ cs → size a ≤ 2 * openings cs →
      Reader size' cs fun room => next room (a, rest)) :
    Reader size' cs fun room => read room >>= next room where
  consumes room := consumes_bind (h.consumes room) fun a rest hrest hsize =>
    (hnext a rest hrest hsize).consumes room
  settled room room' hroom hroom' := by
    rw [h.settled room room' hroom hroom']
    refine bind_congr_ok _ _ _ fun a ha => ?_
    obtain ⟨hrest, hsize⟩ := (h.consumes room').takes a ha
    exact (hnext a.1 a.2 hrest hsize).settled room room' hroom hroom'

/-- An opening bracket takes up room for one more object or list, which may be larger by two. -/
theorem reader_enter {c : Char} (hc : c = '\x7b' ∨ c = '[') {fault : Fault}
    (hfault : ∀ room, room < openings (c :: rest) → OfText room (c :: rest) fault)
    {read : Nat → Except Fault (α × List Char)} (h : Reader (fun a => size a - 2) rest read) :
    Reader size (c :: rest) fun room => Stack.enter fault 1 room read where
  consumes room := by
    have hcount := openings_cons hc rest
    cases room with
    | zero => exact consumes_error (hfault 0 (by omega))
    | succ room =>
      rw [Stack.enter_succ]
      have hinside := h.consumes room
      refine ⟨fun a ha => ?_, fun fault hfault => ?_⟩
      · obtain ⟨hleft, hsize⟩ := hinside.takes a ha
        exact ⟨hleft.trans (List.suffix_cons _ _), by omega⟩
      · -- one more bracket in front goes with one more call that there is room for
        cases hinside.fails fault hfault with
        | object h => exact .object (by omega)
        | list h => exact .list (by omega)
        | showing h => exact .showing (by omega)
        | half h => exact .half (holdsHalf_mono h (List.suffix_cons _ _))
        | syntactic cause p index => exact .syntactic cause p index
        | integerText digits => exact .integerText digits
        | integerRange => exact .integerRange
        | badWeight h => exact .badWeight h
  settled room room' hroom hroom' := by
    rw [openings_cons hc] at hroom hroom'
    obtain ⟨n, rfl⟩ : ∃ n, room = n + 1 := ⟨room - 1, by omega⟩
    obtain ⟨m, rfl⟩ : ∃ m, room' = m + 1 := ⟨room' - 1, by omega⟩
    rw [Stack.enter_succ, Stack.enter_succ]
    exact h.settled n m (by omega) (by omega)

end

/-! ### Strings and numbers -/

section

variable {room : Nat} {cs rest : List Char}

theorem consumes_prepend {r : Except Fault (List Char × List Char)}
    (h : Consumes (fun _ => 0) room cs r) (c : Char) :
    Consumes (fun _ => 0) room cs (prepend c r) :=
  consumes_bind h fun _ _ hrest _ => consumes_ok hrest (Nat.zero_le _)

theorem consumes_unlessHalf {α : Type} {size : α → Nat} {half : Option Nat}
    (hhalf : ∀ unit ∈ half, HoldsHalf unit cs) {r : Except Fault (α × List Char)}
    (h : Consumes size room cs r) : Consumes size room cs (unlessHalf half r) := by
  cases half with
  | none => exact h
  | some unit => exact consumes_error (.half (hhalf unit rfl))

theorem hexGroup?_of_unit? {a b c d : Char} {unit : Nat} (h : unit? a b c d rest = some unit) :
    hexGroup? a b c d = some unit := by
  unfold unit? at h
  split at h
  · cases h
  · exact h

/-- The body of a string; an escape in front of it may have left half of a pair. -/
theorem consumes_stringBody (text : List Char) (start : Nat) (half : Option Nat) (rest : List Char)
    (hrest : rest <:+ cs) (hhalf : ∀ unit ∈ half, HoldsHalf unit cs) :
    Consumes (fun _ => 0) room cs (stringBody text start half rest) := by
  have hnone : ∀ unit ∈ (none : Option Nat), HoldsHalf unit cs := nofun
  have hescape : ∀ {a b c d : Char} {tail : List Char} {unit : Nat},
      '\\' :: 'u' :: a :: b :: c :: d :: tail <:+ cs → unit? a b c d tail = some unit →
        (isHighSurrogate unit || isLowSurrogate unit) = true → HoldsHalf unit cs := by
    intro a b c d tail unit htail hunit hpair
    refine ⟨hpair, a, b, c, d, hexGroup?_of_unit? hunit, ?_⟩
    exact (List.prefix_append ['\\', 'u', a, b, c, d] tail).isInfix.trans htail.isInfix
  have htail : ∀ front {tail : List Char}, front ++ tail <:+ cs → tail <:+ cs :=
    fun _ _ h => (List.suffix_append _ _).trans h
  fun_induction stringBody text start half rest with
  | case1 => exact consumes_fault _ _ _
  | case2 => exact consumes_fault _ _ _
  | case3 a b c d tail unit high _ _ ih =>
    exact consumes_prepend (ih (htail ['\\', 'u', a, b, c, d] hrest) hnone) _
  | case4 a b c d tail unit high => exact consumes_error (.half (hhalf high rfl))
  | case5 a b c d tail unit hunit hhigh ih =>
    refine ih (htail ['\\', 'u', a, b, c, d] hrest) ?_
    rintro _ ⟨⟩
    exact hescape hrest hunit (by rw [hhigh, Bool.true_or])
  | case6 a b c d tail unit hunit _ hlow =>
    exact consumes_error (.half (hescape hrest hunit (by rw [hlow, Bool.or_true])))
  | case7 a b c d tail unit _ _ _ ih =>
    exact consumes_prepend (ih (htail ['\\', 'u', a, b, c, d] hrest) hnone) _
  | case8 half e tail _ ih =>
    refine consumes_unlessHalf hhalf ?_
    split
    · split
      · exact consumes_fault _ _ _
      · exact consumes_fault _ _ _
    · exact consumes_prepend (ih (htail ['\\', e] hrest) hnone) _
  | case9 half c tail _ _ ih =>
    have hleft := htail [c] hrest
    refine consumes_unlessHalf hhalf ?_
    split
    · exact consumes_ok hleft (Nat.zero_le _)
    · split
      · exact consumes_fault _ _ _
      · split
        · exact consumes_fault _ _ _
        · exact consumes_prepend (ih hleft hnone) _

theorem consumes_string (text cs : List Char) : Consumes (fun _ => 0) room cs (string text cs) :=
  consumes_bind (consumes_stringBody _ _ _ _ List.suffix_rfl nofun) fun _ _ hrest _ =>
    consumes_ok hrest (Nat.zero_le _)

theorem digits_suffix (cs : List Char) : (Numeral.digits cs).2 <:+ cs :=
  List.dropWhile_suffix _

theorem wholeDigits?_suffix {whole : List Char} (h : wholeDigits? cs = some (whole, rest)) :
    rest <:+ cs := by
  unfold wholeDigits? at h
  split at h
  · cases h
    exact List.suffix_cons _ _
  · dsimp only at h
    split at h
    · cases h
    · cases h
      exact digits_suffix _

theorem fractionDigits_suffix (cs : List Char) : (fractionDigits cs).2 <:+ cs := by
  unfold fractionDigits
  split
  next rest =>
    dsimp only
    split
    · exact List.suffix_rfl
    · exact (digits_suffix rest).trans (List.suffix_cons _ _)
  next => exact List.suffix_rfl

theorem exponent_suffix (cs : List Char) : (exponent cs).2 <:+ cs := by
  unfold exponent
  split
  next e rest =>
    dsimp only
    split
    · have hsign : (Numeral.sign rest).2 <:+ rest := by
        unfold Numeral.sign
        split
        · exact List.suffix_cons _ _
        · exact List.suffix_cons _ _
        · exact List.suffix_rfl
      exact ((digits_suffix _).trans hsign).trans (List.suffix_cons _ _)
    · exact List.suffix_rfl
  next => exact List.suffix_rfl

theorem consumes_number (text cs : List Char) :
    Consumes Value.inspectCalls room cs (number text cs) := by
  unfold number
  split
  next negative digits hdigits =>
    have hleft : digits <:+ cs := by
      split at hdigits
      · cases hdigits
        exact List.suffix_cons _ _
      · cases hdigits
        exact List.suffix_rfl
    split
    next => exact consumes_fault _ _ _
    next whole rest hwhole =>
      refine consumes_made (Number.failsIn_ofNumeral .integerText _) Value.number
        (fun _ _ => Nat.zero_le _) ?_
      exact (exponent_suffix _).trans ((fractionDigits_suffix _).trans
        ((wholeDigits?_suffix hwhole).trans hleft))

end

/-! ### Values -/

section

variable {room : Nat} {cs : List Char}

theorem failsIn_withWeight (value weight : Value) :
    FailsIn (OfText room cs) (value.withWeight weight) := by
  have hrefuse : FailsIn (OfText room cs)
      (do throw (.badWeight (← weight.inspect)) : Except Fault Value) := by
    refine failsIn_bind_ok (weight.failsIn_inspect .integerText) fun shown hshown => ?_
    exact failsIn_error (.badWeight (weight.isLine_inspect shown hshown))
  unfold Value.withWeight
  dsimp only
  split
  next n =>
    refine failsIn_bind ?_ fun x => ?_
    · cases n with
      | float x => exact failsIn_ok x
      | int n =>
        show FailsIn (OfText room cs) (Number.floatOfInt n)
        unfold Number.floatOfInt
        split
        · exact failsIn_ok _
        · exact failsIn_error .integerRange
    · split
      · exact failsIn_ok _
      · exact hrefuse
  next => exact hrefuse

/-- A weighted value has a positive, finite weight. -/
theorem givesIn_withWeight (value weight : Value) :
    GivesIn (fun v => ∃ x, v = .weighted value x ∧ 0 < x ∧ (Binary64.ofFloat x).isFinite = true)
      (value.withWeight weight) := by
  have hrefuse : ∀ P, GivesIn P (do throw (.badWeight (← weight.inspect)) : Except Fault Value) :=
    fun _ => givesIn_bind (givesIn_true _) fun _ _ => givesIn_error _
  unfold Value.withWeight
  dsimp only
  split
  next n =>
    refine givesIn_bind (givesIn_true _) fun x _ => ?_
    split
    next hweight =>
      rw [Bool.and_eq_true, decide_eq_true_eq] at hweight
      exact givesIn_ok ⟨x, rfl, hweight⟩
    next => exact hrefuse _
  next => exact hrefuse _

/-- An object that is made of entries of a text. -/
theorem reader_objectOf {entries : List (String × Value)}
    (hentries : Value.entryCalls ⟨1, 1, 2, 0⟩ entries ≤ 2 * openings cs) (hrest : rest <:+ cs) :
    Reader (fun v => v.inspectCalls - 2) cs fun room => do
      return (← objectOf room entries, rest) := by
  have hmem := (entryCalls_le_iff entries _).mp hentries
  have htable : ∀ entry ∈ Table.ofEntries entries, entry.2.inspectCalls ≤ 2 * openings cs :=
    fun entry h => hmem entry ((Table.ofEntries_facts entries).2.1 entry h)
  have hobject : (Value.object (Table.ofEntries entries)).inspectCalls - 2 ≤ 2 * openings cs := by
    have hcalls := (entryCalls_le_iff _ _).mpr htable
    show Value.entryCalls _ _ + 1 - 2 ≤ _
    omega
  unfold objectOf
  dsimp only
  split
  next value weight hvalue hweight =>
    have hvalueCalls : value.inspectCalls ≤ 2 * openings cs := htable _ (Table.mem_of_get? hvalue)
    have hweightCalls : weight.inspectCalls ≤ 2 * openings cs :=
      htable _ (Table.mem_of_get? hweight)
    split
    · refine ⟨fun room => consumes_made ?_ id ?_ hrest, fun room room' hroom hroom' => ?_⟩
      · exact failsIn_enter (fun hroom => .showing (by omega)) (failsIn_withWeight value weight)
      · refine givesIn_enter _ _ _ fun _ v hv => ?_
        obtain ⟨x, rfl, -⟩ := givesIn_withWeight value weight v hv
        exact hvalueCalls
      · rw [weightedIn_of_room (by omega), weightedIn_of_room (by omega)]
    · exact reader_const fun _ => consumes_ok hrest hobject
  next => exact reader_const fun _ => consumes_ok hrest hobject

end

/-- Values, items and entries are read from the text in front of them, by induction on the fuel. -/
theorem reader_values (text : List Char) (fuel : Nat) :
    (∀ cs, Reader Value.inspectCalls cs fun room => value text room fuel cs) ∧
      (∀ cs, Reader (Value.itemCalls ⟨1, 1, 2, 0⟩) cs fun room => elements text room fuel cs) ∧
      ∀ cs, Reader (Value.entryCalls ⟨1, 1, 2, 0⟩) cs fun room => members text room fuel cs := by
  -- values, items and entries are read by one another with less fuel, so they are taken together
  induction fuel with
  | zero =>
    exact ⟨fun _ => reader_const fun _ => consumes_fault _ _ _,
      fun _ => reader_const fun _ => consumes_fault _ _ _,
      fun _ => reader_const fun _ => consumes_fault _ _ _⟩
  | succ fuel ih =>
    obtain ⟨hvalue, helements, hmembers⟩ := ih
    refine ⟨fun cs => ?_, fun cs => ?_, fun cs => ?_⟩
    · unfold value
      split
      next rest =>
        refine reader_const fun room => Consumes.mono ?_ (List.suffix_cons _ rest)
        exact consumes_bind (consumes_string _ _) fun _ _ hrest _ =>
          consumes_ok hrest (Nat.zero_le _)
      next rest =>
        refine reader_enter (.inl rfl) (fun _ => .object) ?_
        split
        next heq =>
          exact reader_const fun _ =>
            consumes_ok (suffix_of_skipBlanks heq List.suffix_rfl) (Nat.zero_le _)
        next =>
          exact reader_bind ((hmembers _).mono (skipBlanks_suffix rest))
            fun entries _ hrest hentries => reader_objectOf hentries hrest
      next rest =>
        refine reader_enter (.inr rfl) (fun _ => .list) ?_
        split
        next heq =>
          exact reader_const fun _ =>
            consumes_ok (suffix_of_skipBlanks heq List.suffix_rfl) (Nat.zero_le _)
        next =>
          refine reader_bind ((helements _).mono (skipBlanks_suffix rest))
            fun items _ hrest hitems => reader_const fun room => consumes_ok hrest ?_
          show Value.itemCalls _ _ + 1 - 2 ≤ _
          omega
      iterate 6
        exact reader_const fun _ => consumes_ok (by simp [List.suffix_cons_iff]) (Nat.zero_le _)
      next => exact reader_const fun _ => consumes_number _ _
    · unfold elements
      refine reader_bind (hvalue _) fun item rest hrest hitem => ?_
      dsimp only
      split
      next heq =>
        exact reader_const fun _ => consumes_ok (suffix_of_skipBlanks heq hrest)
          (Nat.max_le.mpr ⟨hitem, Nat.zero_le _⟩)
      next tail heq =>
        have hleft := (skipBlanks_suffix tail).trans (suffix_of_skipBlanks heq hrest)
        exact reader_bind ((helements _).mono hleft) fun _ _ hrest hitems =>
          reader_const fun _ => consumes_ok hrest (Nat.max_le.mpr ⟨hitem, hitems⟩)
      next => exact reader_const fun _ => consumes_fault _ _ _
    · unfold members
      split
      next cs =>
        refine Reader.mono ?_ (List.suffix_cons _ cs)
        refine reader_bind (reader_const fun _ => consumes_string _ _) fun key rest hrest _ => ?_
        dsimp only
        split
        next tail heq =>
          have hleft := (skipBlanks_suffix tail).trans (suffix_of_skipBlanks heq hrest)
          refine reader_bind ((hvalue _).mono hleft) fun v rest hrest hv => ?_
          dsimp only
          split
          next heq =>
            exact reader_const fun _ => consumes_ok (suffix_of_skipBlanks heq hrest)
              (Nat.max_le.mpr ⟨hv, Nat.zero_le _⟩)
          next tail heq =>
            have hleft := (skipBlanks_suffix tail).trans (suffix_of_skipBlanks heq hrest)
            exact reader_bind ((hmembers _).mono hleft) fun _ _ hrest hentries =>
              reader_const fun _ => consumes_ok hrest (Nat.max_le.mpr ⟨hv, hentries⟩)
          next => exact reader_const fun _ => consumes_fault _ _ _
        next => exact reader_const fun _ => consumes_fault _ _ _
      next => exact reader_const fun _ => consumes_fault _ _ _

/-! ### Whole texts -/

/-- Room for two calls for each object and list that open in a text is as much as it takes to read
it. -/
theorem readOn_of_room {room : Nat} {s : String} (h : 2 * openings s.toList ≤ room) :
    readOn room s = read s := by
  have hlength : openings s.toList ≤ s.length := by
    rw [← String.length_toList]
    exact List.countP_le_length
  have hblanks := openings_le (skipBlanks_suffix s.toList)
  have hvalue := fun fuel => ((reader_values s.toList fuel).1 (skipBlanks s.toList)).settled room
    (2 * s.length) (by omega) (by omega)
  unfold read readOn
  dsimp only
  rw [hvalue]

end ProseGrammar.Json
