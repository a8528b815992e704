import ProseGrammar.Proofs.Decimal.Integers
import ProseGrammar.Proofs.Grammar.Operands

/-!
# Precedence

Operands with operators between them read as one tree. Its traversal is the chain as it stands, and
operators that bind tighter stand deeper: comparisons bind loosest, then sums, then products, and
among equals the left one stands deeper. Each level of the reader takes the longest part of a chain
whose operators bind as tightly as its own, so one induction on the chain serves all levels.
-/

namespace ProseGrammar

variable {α β : Type}

/-! ### Trees of operators -/

/-- How tightly an operator binds. -/
def BinaryOp.tightness : BinaryOp → Nat
  | multiply | divide => 2
  | add | subtract => 1
  | _ => 0

/-- Whether a node is no operation, or one with an operator of a class. -/
def Node.OperatorIn (allowed : BinaryOp → Prop) : Node → Prop
  | .binary _ op _ => allowed op
  | _ => True

/-- Whether every operation that is a right operand binds tighter than the operation that it belongs
to, and every one that is a left operand at least as tightly. -/
def Node.IsGrouped : Node → Prop
  | .binary left op right =>
    left.IsGrouped ∧ right.IsGrouped ∧
      left.OperatorIn (fun inner => op.tightness ≤ inner.tightness) ∧
      right.OperatorIn (fun inner => op.tightness < inner.tightness)
  | _ => True

/-- The operands and operators of a tree from left to right. -/
def Node.inOrder : Node → List (Node ⊕ BinaryOp)
  | .binary left op right => left.inOrder ++ .inr op :: right.inOrder
  | n => [.inl n]

theorem Node.OperatorIn.mono {p q : BinaryOp → Prop} (h : ∀ op, p op → q op) {n : Node}
    (hn : n.OperatorIn p) : n.OperatorIn q := by
  cases n with
  | binary left op right => exact h op hn
  | _ => trivial

/-- No operator of a grouped tree binds looser than the one at its root. -/
theorem Node.tightness_of_mem_inOrder (n : Node) (level : Nat) (hn : n.IsGrouped)
    (hroot : n.OperatorIn fun op => level ≤ op.tightness) (op : BinaryOp)
    (hop : .inr op ∈ n.inOrder) : level ≤ op.tightness := by
  induction n using Node.inOrder.induct generalizing level with
  | case1 left root right ihleft ihright =>
    obtain ⟨hleft, hright, hlow, hhigh⟩ := hn
    have hlevel : level ≤ root.tightness := hroot
    rw [Node.inOrder, List.mem_append, List.mem_cons] at hop
    rcases hop with hop | hop | hop
    · exact ihleft level hleft (hlow.mono fun _ hle => Nat.le_trans hlevel hle) hop
    · cases hop
      exact hlevel
    · have hinner := hhigh.mono fun _ hlt => Nat.le_trans hlevel (Nat.le_of_lt hlt)
      exact ihright level hright hinner hop
  | case2 n hleaf =>
    rw [Node.inOrder.eq_2 n hleaf] at hop
    simp at hop

/-- In two grouped trees with one traversal the operator at the root is the same one: what stands in
front of it in one tree does so in the other. -/
theorem Node.front_of_root {left left' right right' : Node} {op op' : BinaryOp}
    {between : List (Node ⊕ BinaryOp)} (hn : (Node.binary left op right).IsGrouped)
    (hm : (Node.binary left' op' right').IsGrouped)
    (hleft : left'.inOrder = left.inOrder ++ between)
    (hright : .inr op :: right.inOrder = between ++ .inr op' :: right'.inOrder) : between = [] := by
  cases between with
  | nil => rfl
  | cons item between =>
    rw [List.cons_append] at hright
    obtain ⟨hitem, hbehind⟩ := List.cons.inj hright
    rw [← hitem] at hleft
    have hlow := left'.tightness_of_mem_inOrder op'.tightness hm.1 hm.2.2.1 op
      (by rw [hleft]; simp)
    have hhigh := right.tightness_of_mem_inOrder (op.tightness + 1) hn.2.1 hn.2.2.2 op'
      (by rw [hbehind]; simp)
    omega

theorem Node.inOrder_cases (n : Node) :
    (∃ left op right, n = .binary left op right) ∨ n.inOrder = [.inl n] := by
  cases n with
  | binary left op right => exact .inl ⟨left, op, right, rfl⟩
  | _ => exact .inr rfl

theorem Node.inOrder_ne_singleton (left right n : Node) (op : BinaryOp) :
    (Node.binary left op right).inOrder ≠ [.inl n] := by
  intro h
  have hop : .inr op ∈ (Node.binary left op right).inOrder := by simp [Node.inOrder]
  rw [h] at hop
  simp at hop

/-- A grouped tree is the only one with its traversal. -/
theorem Node.eq_of_inOrder_eq (n m : Node) (hn : n.IsGrouped) (hm : m.IsGrouped)
    (h : n.inOrder = m.inOrder) : n = m := by
  induction n using Node.inOrder.induct generalizing m with
  | case1 left op right ihleft ihright =>
    rcases m.inOrder_cases with ⟨left', op', right', rfl⟩ | hleaf
    · rw [Node.inOrder, Node.inOrder] at h
      have hsame : left.inOrder = left'.inOrder ∧
          .inr op :: right.inOrder = .inr op' :: right'.inOrder := by
        rcases List.append_eq_append_iff.mp h with
          ⟨between, hleft, hright⟩ | ⟨between, hleft, hright⟩
        · obtain rfl := Node.front_of_root hn hm hleft hright
          exact ⟨by simpa using hleft.symm, hright⟩
        · obtain rfl := Node.front_of_root hm hn hleft hright
          exact ⟨by simpa using hleft, hright.symm⟩
      obtain ⟨hop, hright⟩ := List.cons.inj hsame.2
      rw [ihleft left' hn.1 hm.1 hsame.1, Sum.inr.inj hop, ihright right' hn.2.1 hm.2.1 hright]
    · exact absurd (h.trans hleaf) (Node.inOrder_ne_singleton left right m op)
  | case2 n hleaf =>
    rw [Node.inOrder.eq_2 n hleaf] at h
    rcases m.inOrder_cases with ⟨left', op', right', rfl⟩ | hleaf'
    · exact absurd h.symm (Node.inOrder_ne_singleton left' right' n op')
    · rw [hleaf'] at h
      simpa using h

/-- A grouped tree with a traversal and no operator that binds looser than a level. -/
structure Node.Groups (n : Node) (level : Nat) (items : List (Node ⊕ BinaryOp)) : Prop where
  inOrder : n.inOrder = items
  isGrouped : n.IsGrouped
  root : n.OperatorIn fun op => level ≤ op.tightness

theorem Node.Groups.of_succ {n : Node} {level : Nat} {items : List (Node ⊕ BinaryOp)}
    (h : n.Groups (level + 1) items) : n.Groups level items :=
  ⟨h.inOrder, h.isGrouped, h.root.mono fun _ hle => Nat.le_of_succ_le hle⟩

theorem Node.Groups.binary {left right : Node} {op : BinaryOp}
    {front behind : List (Node ⊕ BinaryOp)} (hleft : left.Groups op.tightness front)
    (hright : right.Groups (op.tightness + 1) behind) :
    (Node.binary left op right).Groups op.tightness (front ++ .inr op :: behind) where
  inOrder := by rw [Node.inOrder, hleft.inOrder, hright.inOrder]
  isGrouped := ⟨hleft.isGrouped, hright.isGrouped, hleft.root, hright.root⟩
  root := Nat.le_refl op.tightness

/-! ### Chains of tokens -/

/-- Whether a token is a number of at most 4300 digits. -/
structure Token.IsShortNumber (t : Token) : Prop where
  kind : t.kind = .number
  numeral : Text.isPlainNumeral t.value.toList = true
  digits : t.value.toList.countP Decimal.isDigit ≤ Decimal.digitLimit

/-- The number that a token denotes. -/
def Token.numeral (t : Token) : Number :=
  match t.number? with
  | .ok (some n) => n
  | _ => .int 0

/-- An operand of one or two tokens: a number, a number behind a minus sign, a string or an
identifier. -/
inductive Operand
  | number (t : Token) (h : t.IsShortNumber)
  | negative (sign t : Token) (hs : sign.kind = .minus) (h : t.IsShortNumber)
  | text (t : Token) (h : t.kind = .string ∨ t.kind = .identifier)

namespace Operand

def tokens : Operand → List Token
  | number t _ => [t]
  | negative sign t _ _ => [sign, t]
  | text t _ => [t]

/-- The literal that an operand stands for. -/
def node : Operand → Node
  | number t _ => .literal (.number t.numeral)
  | negative _ t _ _ => .literal (.number t.numeral.neg)
  | text t _ => .literal (.text t.value)

end Operand

/-- A token that is an operator between operands. -/
structure Operator where
  token : Token
  isOperator : token.kind.isOperator = true
  symbol : token.value = String.ofList token.kind.symbol

def Operator.op (o : Operator) : BinaryOp :=
  BinaryOp.ofSymbol o.token.value

/-- The operators behind the first operand of a chain, each with the operand that follows it. -/
abbrev Operations : Type :=
  List (Operator × Operand)

namespace Operations

def tokens (rest : Operations) : List Token :=
  rest.flatMap fun x => x.1.token :: x.2.tokens

def items (rest : Operations) : List (Node ⊕ BinaryOp) :=
  rest.flatMap fun x => [.inr x.1.op, .inl x.2.node]

end Operations

/-- Operands with operators between them. -/
structure Chain where
  first : Operand
  rest : Operations

namespace Chain

def tokens (c : Chain) : List Token :=
  c.first.tokens ++ c.rest.tokens

def items (c : Chain) : List (Node ⊕ BinaryOp) :=
  .inl c.first.node :: c.rest.items

theorem tokens_append (first : Operand) (front behind : Operations) :
    tokens ⟨first, front ++ behind⟩ = tokens ⟨first, front⟩ ++ behind.tokens := by
  simp [tokens, Operations.tokens]

theorem items_append (first : Operand) (front behind : Operations) :
    items ⟨first, front ++ behind⟩ = items ⟨first, front⟩ ++ behind.items := by
  simp [items, Operations.items]

end Chain

/-! ### Taking tokens -/

/-- A parser takes the tokens `ts` as `a` where `rest` follows them, whatever stands before. -/
def Takes (parser : Parser α) (ts rest : List Token) (a : α) : Prop :=
  ∀ index, parser ⟨index, ts ++ rest⟩ = .ok (a, ⟨index + ts.length, rest⟩)

theorem takes_pure (a : α) (rest : List Token) : Takes (pure a) [] rest a := fun _ => rfl

theorem takes_bind {parser : Parser α} {next : α → Parser β} {ts us rest : List Token} {a : α}
    {b : β} (hp : Takes parser ts (us ++ rest) a) (hn : Takes (next a) us rest b) :
    Takes (parser >>= next) (ts ++ us) rest b := by
  intro index
  show (parser ⟨index, ts ++ us ++ rest⟩ >>= fun x => next x.1 x.2) = _
  rw [List.append_assoc, hp index, List.length_append, ← Nat.add_assoc]
  exact hn (index + ts.length)

theorem takes_bind_nil {parser : Parser α} {next : α → Parser β} {ts rest : List Token} {a : α}
    {b : β} (hp : Takes parser [] (ts ++ rest) a) (hn : Takes (next a) ts rest b) :
    Takes (parser >>= next) ts rest b :=
  takes_bind hp hn

theorem takes_map {parser : Parser α} {ts rest : List Token} {a : α} (f : α → β)
    (h : Takes parser ts rest a) : Takes (parser >>= fun a => pure (f a)) ts rest (f a) := by
  intro index
  show (parser ⟨index, ts ++ rest⟩ >>= fun x => .ok (f x.1, x.2)) = _
  rw [h index]
  rfl

theorem takes_get {next : Cursor → Parser β} {ts rest : List Token} {b : β}
    (h : ∀ index, Takes (next ⟨index, ts ++ rest⟩) ts rest b) : Takes (get >>= next) ts rest b :=
  fun index => h index index

theorem takes_advance {next : Token → Parser β} {t : Token} {ts rest : List Token} {b : β}
    (hk : t.kind ≠ .endOfText) (h : Takes (next t) ts rest b) :
    Takes (Parser.advance >>= next) (t :: ts) rest b := by
  intro index
  have hnext : Cursor.next ⟨index, t :: (ts ++ rest)⟩ = ⟨index + 1, ts ++ rest⟩ := if_neg hk
  show next t (Cursor.next ⟨index, t :: (ts ++ rest)⟩) = _
  rw [hnext, h (index + 1), List.length_cons, Nat.add_right_comm, Nat.add_assoc]

/-- The kind of the token at the front of a list. -/
def Token.nextKind (ts : List Token) : TokenKind :=
  Cursor.kind ⟨0, ts⟩

theorem takes_accept_other {next : Bool → Parser β} {kind : TokenKind} {ts rest : List Token}
    {b : β} (hk : Token.nextKind (ts ++ rest) ≠ kind) (h : Takes (next false) ts rest b) :
    Takes (Parser.accept kind >>= next) ts rest b := by
  intro index
  have haccept : Parser.accept kind ⟨index, ts ++ rest⟩ = .ok (false, ⟨index, ts ++ rest⟩) := by
    show (if Token.nextKind (ts ++ rest) = kind then _ else _ : Parser Bool) _ = _
    rw [if_neg hk]
    rfl
  show (Parser.accept kind ⟨index, ts ++ rest⟩ >>= fun x => next x.1 x.2) = _
  rw [haccept]
  exact h index

theorem takes_expect {next : Token → Parser β} {cause : SyntaxCause} {t : Token}
    {ts rest : List Token} {b : β} (hk : t.kind ≠ .endOfText) (h : Takes (next t) ts rest b) :
    Takes (Parser.expect t.kind cause >>= next) (t :: ts) rest b := by
  intro index
  have hexpect : Parser.expect t.kind cause ⟨index, t :: ts ++ rest⟩ =
      Parser.advance ⟨index, t :: ts ++ rest⟩ := by
    show (if t.kind = t.kind then Parser.advance else Parser.fail cause) _ = _
    rw [if_pos rfl]
  show (Parser.expect t.kind cause ⟨index, t :: ts ++ rest⟩ >>= fun x => next x.1 x.2) = _
  rw [hexpect]
  exact takes_advance hk h index

/-- The tokens `ts` are those of items, one after the other, each of which the next token allows,
and what follows them allows no further one. -/
inductive TakesAll (goesOn : Cursor → Bool) (item : Parser α) (rest : List Token) :
    List Token → List α → Prop
  | nil (h : ∀ index, goesOn ⟨index, rest⟩ = false) : TakesAll goesOn item rest [] []
  | cons {t : Token} {ts us : List Token} {a : α} {as : List α}
      (hg : ∀ index, goesOn ⟨index, t :: ts ++ us ++ rest⟩ = true)
      (ha : Takes item (t :: ts) (us ++ rest) a) (has : TakesAll goesOn item rest us as) :
      TakesAll goesOn item rest (t :: ts ++ us) (a :: as)

theorem repeatFrom_of_takesAll {goesOn : Cursor → Bool} {item : Parser α} {rest ts : List Token}
    {as : List α} (h : TakesAll goesOn item rest ts as) (bound : List Token) (index : Nat)
    (hb : ts.length ≤ bound.length) :
    Parser.repeatFrom goesOn item bound ⟨index, ts ++ rest⟩ =
      .ok (as, ⟨index + ts.length, rest⟩) := by
  induction h generalizing bound index with
  | nil hstop => exact Parser.repeatFrom_stop (hstop index) bound
  | @cons t ts us a as hg ha has ih =>
    cases bound with
    | nil => exact absurd hb (by simp)
    | cons u bound =>
      have hle : us.length ≤ bound.length := by
        simp only [List.length_append, List.length_cons] at hb
        omega
      have hitem := ha index
      rw [← List.append_assoc] at hitem
      rw [Parser.repeatFrom_next (hg index) hitem (ih bound _ hle) u, List.length_append,
        Nat.add_assoc]

theorem takes_repeatWhile {goesOn : Cursor → Bool} {item : Parser α} {rest ts : List Token}
    {as : List α} (h : TakesAll goesOn item rest ts as) :
    Takes (Parser.repeatWhile goesOn item) ts rest as := by
  intro index
  refine repeatFrom_of_takesAll h (ts ++ rest) index ?_
  rw [List.length_append]
  omega

/-! ### Operands -/

theorem Token.number?_of_isShortNumber {t : Token} (h : t.IsShortNumber) :
    t.number? = .ok (some t.numeral) := by
  cases hnumber : t.number? with
  | error fault =>
    obtain ⟨hdigits, hlong, -⟩ := integerText_of_isPlainNumeral t.value h.numeral fault hnumber
    have hcount := h.digits
    rw [List.countP_eq_length.mpr hdigits] at hcount
    omega
  | ok number =>
    cases number with
    | none =>
      have hsome := numberOfText?_of_isPlainNumeral t.value h.numeral none hnumber
      exact absurd hsome (by simp)
    | some n => rw [numeral, hnumber]

theorem takes_numeral (negative : Bool) {t : Token} (h : t.IsShortNumber) (rest : List Token) :
    Takes (Parser.Inner.numeral negative) [t] rest
      (.literal (.number (if negative then t.numeral.neg else t.numeral))) := by
  unfold Parser.Inner.numeral
  refine takes_advance (by rw [h.kind]; decide) ?_
  rw [Token.number?_of_isShortNumber h]
  exact takes_pure _ rest

theorem takes_primary (inner : Parser.Inner) (x : Operand) (rest : List Token) :
    Takes inner.primary x.tokens rest x.node := by
  refine takes_get fun index => ?_
  cases x with
  | number t h =>
    have hk : Cursor.kind ⟨index, [t] ++ rest⟩ = .number := h.kind
    simp only [Operand.tokens, hk]
    exact takes_numeral false h rest
  | negative sign t hs h =>
    have hk : Cursor.kind ⟨index, [sign, t] ++ rest⟩ = .minus := hs
    have hk' : Cursor.kindAt ⟨index, [sign, t] ++ rest⟩ 1 = .number := h.kind
    simp only [Operand.tokens, hk, hk']
    exact takes_advance (by rw [hs]; decide) (takes_numeral true h rest)
  | text t h =>
    have htext : Takes (Parser.advance >>= fun t => pure (Node.literal (.text t.value))) [t] rest
        (.literal (.text t.value)) := by
      refine takes_advance ?_ (takes_pure _ rest)
      rcases h with h | h <;> rw [h] <;> decide
    rcases h with h | h
    · have hk : Cursor.kind ⟨index, [t] ++ rest⟩ = .string := h
      simp only [Operand.tokens, hk]
      exact htext
    · have hk : Cursor.kind ⟨index, [t] ++ rest⟩ = .identifier := h
      simp only [Operand.tokens, hk]
      exact htext

/-! ### Levels of precedence -/

/-- How tightly a token binds as an operator. -/
def TokenKind.tightness? (kind : TokenKind) : Option Nat :=
  if kind.isMultiplicative then some 2
  else if kind.isAdditive then some 1
  else if kind.isComparison then some 0
  else none

/-- Whether a token is an operator of a level or of a tighter one. -/
def TokenKind.bindsFrom (level : Nat) (kind : TokenKind) : Bool :=
  kind.tightness?.any fun tightness => level ≤ tightness

theorem Operator.tightness?_kind (o : Operator) :
    o.token.kind.tightness? = some o.op.tightness := by
  have hkinds : ∀ kind : TokenKind, kind.isOperator = true →
      kind.tightness? = some (BinaryOp.ofSymbol (String.ofList kind.symbol)).tightness := by
    intro kind hkind
    cases kind <;> first | decide | exact absurd hkind (by decide)
  rw [Operator.op, o.symbol]
  exact hkinds o.token.kind o.isOperator

theorem BinaryOp.tightness_le (op : BinaryOp) : op.tightness ≤ 2 := by
  cases op <;> simp [tightness]

/-- A parser takes a chain as one grouped tree if all operators of the chain are of a level or
tighter and no such operator follows. -/
def Climbs (parser : Parser Node) (level : Nat) : Prop :=
  ∀ (c : Chain) (rest : List Token), (∀ x ∈ c.rest, level ≤ x.1.op.tightness) →
    (Token.nextKind rest).bindsFrom level = false →
    ∃ tree, Takes parser c.tokens rest tree ∧ tree.Groups level c.items

theorem climbs_primary (inner : Parser.Inner) : Climbs inner.primary 3 := by
  rintro ⟨first, rest⟩ after hrest -
  cases rest with
  | nil =>
    have hleaf : first.node.Groups 3 [.inl first.node] := by
      cases first <;> exact ⟨rfl, trivial, trivial⟩
    refine ⟨first.node, ?_, hleaf⟩
    rw [Chain.tokens, Operations.tokens, List.flatMap_nil, List.append_nil]
    exact takes_primary inner first after
  | cons x rest =>
    have htight := hrest x List.mem_cons_self
    have hle := BinaryOp.tightness_le x.1.op
    omega

theorem bindsFrom_succ {level : Nat} {kind : TokenKind} (h : kind.bindsFrom level = false) :
    kind.bindsFrom (level + 1) = false := by
  unfold TokenKind.bindsFrom at h ⊢
  cases htight : kind.tightness? with
  | none => rfl
  | some tightness =>
    rw [htight] at h
    simp only [Option.any_some, decide_eq_false_iff_not] at h ⊢
    omega

/-- Of operations that bind from a level on, the tighter ones at the front belong to the operand
before them, and the next one is of the level. -/
theorem exists_tighter {level : Nat} {more : Operations} {rest : List Token}
    (hmore : ∀ x ∈ more, level ≤ x.1.op.tightness)
    (hrest : (Token.nextKind rest).bindsFrom level = false) :
    ∃ tight later : Operations, more = tight ++ later ∧
      (∀ x ∈ tight, level + 1 ≤ x.1.op.tightness) ∧ (∀ x ∈ later, level ≤ x.1.op.tightness) ∧
      (∀ x ∈ later.head?, x.1.op.tightness = level) ∧
      (Token.nextKind (later.tokens ++ rest)).bindsFrom (level + 1) = false := by
  let tighter : Operator × Operand → Bool := fun x => level + 1 ≤ x.1.op.tightness
  have hsplit : more = more.takeWhile tighter ++ more.dropWhile tighter :=
    List.takeWhile_append_dropWhile.symm
  have hlater : ∀ x ∈ more.dropWhile tighter, level ≤ x.1.op.tightness :=
    fun x hx => hmore x ((List.dropWhile_sublist tighter).subset hx)
  have hhead : ∀ x ∈ (more.dropWhile tighter).head?, x.1.op.tightness = level := by
    intro x hx
    have hnot := List.head?_dropWhile_not tighter more
    rw [Option.mem_def.mp hx] at hnot
    have hge := hlater x (List.mem_of_mem_head? hx)
    have hlt : ¬level + 1 ≤ x.1.op.tightness := by simpa [tighter] using hnot
    omega
  refine ⟨more.takeWhile tighter, more.dropWhile tighter, hsplit, ?_, hlater, hhead, ?_⟩
  · intro x hx
    simpa [tighter] using List.all_eq_true.mp List.all_takeWhile x hx
  · cases hcases : more.dropWhile tighter with
    | nil => exact bindsFrom_succ hrest
    | cons y others =>
      have hlevel : y.1.op.tightness = level := hhead y (by rw [hcases]; rfl)
      have hkind : Token.nextKind (Operations.tokens (y :: others) ++ rest) = y.1.token.kind := rfl
      rw [hkind, TokenKind.bindsFrom, y.1.tightness?_kind, hlevel]
      simp

/-- Operations of a level are read as operators with the operands of the next tighter level; grouped
to the left they extend every tree of the level. -/
theorem takesAll_operations {operand : Parser Node} {level : Nat}
    (h : Climbs operand (level + 1)) {more : Operations} {rest : List Token}
    (hmore : ∀ x ∈ more, level ≤ x.1.op.tightness)
    (hhead : ∀ x ∈ more.head?, x.1.op.tightness = level)
    (hrest : (Token.nextKind rest).bindsFrom level = false) :
    ∃ others : List (BinaryOp × Node),
      TakesAll (fun c => decide (c.kind.tightness? = some level))
        (do
          let operator ← Parser.advance
          let right ← operand
          return (BinaryOp.ofSymbol operator.value, right)) rest more.tokens others ∧
      ∀ (left : Node) (front : List (Node ⊕ BinaryOp)), left.Groups level front →
        (others.foldl (fun left other => .binary left other.1 other.2) left).Groups level
          (front ++ more.items) := by
  -- each step takes an operator and all tighter operations behind its operand
  induction hlen : more.length using Nat.strongRecOn generalizing more with
  | ind n ih =>
  cases more with
  | nil =>
    refine ⟨[], .nil fun index => ?_, fun left front hleft => ?_⟩
    · rw [decide_eq_false_iff_not]
      intro htight
      have hkind : (Token.nextKind rest).tightness? = some level := htight
      rw [TokenKind.bindsFrom, hkind] at hrest
      simp at hrest
    · rw [Operations.items, List.flatMap_nil, List.append_nil]
      exact hleft
  | cons x more =>
    obtain ⟨tight, later, rfl, htight, hlater, hnext, hstop⟩ :=
      exists_tighter (fun y hy => hmore y (List.mem_cons_of_mem x hy)) hrest
    obtain ⟨right, hright, hgroups⟩ := h ⟨x.2, tight⟩ _ htight hstop
    have hshort : later.length < n := by
      rw [← hlen, List.length_cons, List.length_append]
      omega
    obtain ⟨others, hothers, hfold⟩ := ih later.length hshort hlater hnext rfl
    have hlevel : x.1.op.tightness = level := hhead x rfl
    refine ⟨(x.1.op, right) :: others, ?_, fun left front hleft => ?_⟩
    · have htokens : Operations.tokens (x :: (tight ++ later)) =
          x.1.token :: Chain.tokens ⟨x.2, tight⟩ ++ later.tokens :=
        congrArg (x.1.token :: ·) (Chain.tokens_append x.2 tight later)
      rw [htokens]
      refine .cons (fun index => ?_) ?_ hothers
      · have hkind : x.1.token.kind.tightness? = some level := by rw [x.1.tightness?_kind, hlevel]
        exact decide_eq_true hkind
      · refine takes_advance ?_ (takes_map _ hright)
        intro hend
        have hoperator := x.1.isOperator
        rw [hend] at hoperator
        cases hoperator
    · have hitems : front ++ Operations.items (x :: (tight ++ later)) =
          front ++ .inr x.1.op :: Chain.items ⟨x.2, tight⟩ ++ later.items := by
        rw [List.append_assoc, List.cons_append, ← Chain.items_append]
        rfl
      subst hlevel
      rw [hitems]
      exact hfold (.binary left x.1.op right) _ (hleft.binary hgroups)

/-- Operators of a level between operands of the next tighter one. -/
theorem climbs_chain {operand : Parser Node} {level : Nat} (isOperator : TokenKind → Bool)
    (hclass : ∀ kind, isOperator kind = decide (kind.tightness? = some level))
    (h : Climbs operand (level + 1)) : Climbs (Parser.Inner.chain isOperator operand) level := by
  rintro ⟨first, more⟩ rest hmore hrest
  obtain ⟨tight, later, rfl, htight, hlater, hnext, hstop⟩ := exists_tighter hmore hrest
  obtain ⟨left, hleft, hgroups⟩ := h ⟨first, tight⟩ _ htight hstop
  obtain ⟨others, hothers, hfold⟩ := takesAll_operations h hlater hnext hrest
  rw [Chain.tokens_append, Chain.items_append, Parser.Inner.chain]
  simp only [hclass]
  exact ⟨_, takes_bind hleft (takes_map _ (takes_repeatWhile hothers)),
    hfold left _ hgroups.of_succ⟩

theorem climbs_comparison (inner : Parser.Inner) : Climbs inner.comparison 0 := by
  have hproduct := climbs_chain TokenKind.isMultiplicative (by intro kind; cases kind <;> rfl)
    (climbs_primary inner)
  have hsum := climbs_chain TokenKind.isAdditive (by intro kind; cases kind <;> rfl) hproduct
  exact climbs_chain TokenKind.isComparison (by intro kind; cases kind <;> rfl) hsum

/-! ### Brackets -/

theorem takes_expression (inner : Parser.Inner) (c : Chain) (close : Token)
    (hclose : close.kind = .rightBracket) (rest : List Token) :
    ∃ tree, Takes inner.readExpression c.tokens (close :: rest) tree ∧ tree.Groups 0 c.items := by
  have hkind : Token.nextKind (close :: rest) = .rightBracket := hclose
  obtain ⟨tree, htree, hgroups⟩ := climbs_comparison inner c (close :: rest)
    (fun _ _ => Nat.zero_le _) (by rw [hkind]; decide)
  refine ⟨tree, ?_, hgroups⟩
  have hassignment : Takes inner.readAssignment c.tokens (close :: rest) tree := by
    rw [← List.append_nil c.tokens]
    refine takes_bind htree (takes_get fun index => ?_)
    have hnone : (Cursor.kind ⟨index, [] ++ close :: rest⟩).isAssignment = false := by
      show (Token.nextKind (close :: rest)).isAssignment = false
      rw [hkind]
      rfl
    rw [hnone]
    exact takes_pure tree _
  rw [← List.append_nil c.tokens]
  refine takes_bind hassignment (takes_accept_other ?_ (takes_pure tree _))
  rw [List.nil_append, hkind]
  decide

theorem takes_bracket (inner : Parser.Inner) (c : Chain) (close : Token)
    (hclose : close.kind = .rightBracket) (rest : List Token) :
    ∃ tree, Takes inner.outer.bracket (c.tokens ++ [close]) rest tree ∧
      tree.Groups 0 c.items := by
  obtain ⟨tree, htree, hgroups⟩ := takes_expression inner c close hclose rest
  refine ⟨tree, ?_, hgroups⟩
  have hbang : Token.nextKind (c.tokens ++ [close] ++ rest) ≠ .bang := by
    obtain ⟨first, more⟩ := c
    cases first with
    | number t h => exact fun hk => absurd (h.kind.symm.trans hk) (by decide)
    | negative sign t hs h => exact fun hk => absurd (hs.symm.trans hk) (by decide)
    | text t h =>
      intro hk
      rcases h with h | h <;> exact absurd (h.symm.trans hk) (by decide)
  have hstop : TakesAll (fun c => decide (c.kind = .semicolon))
      (Parser.advance >>= fun _ => inner.outer.expression) (close :: rest) [] [] := by
    refine .nil fun index => ?_
    rw [decide_eq_false_iff_not]
    exact fun hk => absurd (hclose.symm.trans hk) (by decide)
  rw [Parser.Inner.bracket_eq]
  refine takes_accept_other hbang (takes_bind htree ?_)
  refine takes_bind_nil (takes_repeatWhile hstop) ?_
  rw [← hclose]
  exact takes_expect (by rw [hclose]; decide) (takes_pure tree rest)

/-- A bracket around operands with operators between them reads as one tree, as an element of an
alternative and as an operand, at every place and before all that may follow. The traversal of the
tree is the chain, its operators are grouped by how tightly they bind and to the left, and it is the
only such tree. -/
theorem takes_bracketed_chain (c : Chain) (p q : Position) (depth : Nat) (rest : List Token) :
    let ts := ⟨.leftBracket, "[", p⟩ :: (c.tokens ++ [⟨.rightBracket, "]", q⟩])
    ∃ tree : Node,
      Takes (Parser.element (Parser.Inner.level (depth + 1))) ts rest tree ∧
      Takes (Parser.Inner.level (depth + 1)).primary ts rest tree ∧
      tree.inOrder = c.items ∧ tree.IsGrouped ∧
      ∀ other : Node, other.inOrder = c.items → other.IsGrouped → other = tree := by
  intro ts
  obtain ⟨tree, htree, hitems, hgrouped, -⟩ :=
    takes_bracket (Parser.Inner.level depth) c ⟨.rightBracket, "]", q⟩ rfl rest
  refine ⟨tree, ?_, ?_, hitems, hgrouped, fun other hother hgroup => ?_⟩
  · exact takes_advance TokenKind.noConfusion htree
  · exact takes_get fun index => takes_advance TokenKind.noConfusion htree
  · exact other.eq_of_inOrder_eq tree hgroup hgrouped (hother.trans hitems.symm)

end ProseGrammar
