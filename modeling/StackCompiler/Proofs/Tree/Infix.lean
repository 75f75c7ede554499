import StackCompiler.Proofs.Tree.Order

/-!
Expressions as trees of operators. A rendering of a tree is a list of infix tokens with parentheses
at least where the priorities require them, and its evaluation order is the postfix order of the
tree.
-/

namespace StackCompiler

inductive Infix (α : Type) where
  | leaf (value : α)
  | unary (op : Operator) (isUnary : op.isUnary = true) (operand : Infix α)
  | binary (op : Operator) (isBinary : op.isUnary = false) (left right : Infix α)

namespace Infix

variable {α β : Type}

def isBinary : Infix α → Bool
  | binary .. => true
  | _ => false

/-- An unrecognised operator binds tighter than the unary ones, so only leaves can stand beside it
without parentheses. -/
def needsParens (op : Operator) (tooLoose : Operator → Bool) : Infix α → Bool
  | leaf _ => false
  | unary .. => op.isOther
  | binary inner .. => op.isOther || tooLoose inner

/-- Operators of one priority group to the left. -/
def leftNeedsParens (op : Operator) : Infix α → Bool :=
  needsParens op fun inner => inner.priority < op.priority

def rightNeedsParens (op : Operator) : Infix α → Bool :=
  needsParens op fun inner => inner.priority ≤ op.priority

/-- Left operand, right operand, operator. -/
def postfixOrder : Infix α → List (Step α)
  | leaf a => [.operand a]
  | unary op _ t => t.postfixOrder ++ [.apply op]
  | binary op _ l r => l.postfixOrder ++ r.postfixOrder ++ [.apply op]

/-- The flag says whether the outermost tokens are a pair of parentheses. -/
inductive Renders : Bool → Infix α → List (Token α) → Prop where
  | leaf (a : α) : Renders false (leaf a) [.leaf a]
  | parens {enclosed t tokens} (h : Renders enclosed t tokens) :
      Renders true t (.opening :: tokens ++ [.closing])
  | unary {enclosed op isUnary t tokens} (h : Renders enclosed t tokens)
      (parens : t.isBinary → enclosed) :
      Renders false (unary op isUnary t) (.operator op :: tokens)
  | binary {enclosed enclosed' op isBinary l r left right} (hl : Renders enclosed l left)
      (hr : Renders enclosed' r right) (parens : l.leftNeedsParens op → enclosed)
      (parens' : r.rightNeedsParens op → enclosed') :
      Renders false (binary op isBinary l r) (left ++ .operator op :: right)

end Infix

theorem Operator.priority_le (op : Operator) : op.priority ≤ 0xffffffff := by
  cases op <;> simp [priority]

theorem Operator.priority_of_isUnary {op : Operator} (h : op.isUnary = true) : 5 ≤ op.priority := by
  cases op <;> simp [priority, isUnary] at h ⊢

theorem Operator.priority_le_of_not_isOther {op : Operator} (h : op.isOther = false)
    (hb : op.isUnary = false) : op.priority ≤ 5 := by
  cases op <;> simp [priority, isOther, isUnary] at h hb ⊢

namespace Pending

/-- An operator of this priority makes none of the pending ones apply. -/
def Blocks (priority : Nat) (waiting : List Pending) : Prop :=
  ∀ op, waiting.head? = some (.operator op) → op.priority < priority

theorem Blocks.mono {p q : Nat} {waiting : List Pending} (h : Blocks p waiting) (hpq : p ≤ q) :
    Blocks q waiting := fun op hop => Nat.lt_of_lt_of_le (h op hop) hpq

theorem splitTighter_of_blocks {p : Nat} {waiting : List Pending} (h : Blocks p waiting) :
    splitTighter p waiting = ([], waiting) := by
  cases waiting with
  | nil => rfl
  | cons head rest =>
    cases head with
    | opening => rfl
    | operator op =>
      have := h op rfl
      simp only [splitTighter]
      rw [if_neg (by omega)]

end Pending

section

variable {α β : Type}

/-- Tokens before which every pending operator of this priority or a higher one applies. -/
def Token.Ends (priority : Nat) : List (Token α) → Prop
  | [] | .closing :: _ => True
  | .operator op :: _ => op.isUnary = false ∧ op.priority ≤ priority
  | .leaf _ :: _ | .opening :: _ => False

theorem Token.Ends.mono {p q : Nat} {tokens : List (Token α)} (h : Token.Ends p tokens)
    (hpq : p ≤ q) : Token.Ends q tokens := by
  unfold Token.Ends at *
  split at h
  · trivial
  · trivial
  · exact ⟨h.1, Nat.le_trans h.2 hpq⟩
  · cases h
  · cases h

theorem orderFrom_pending {op : Operator} {tokens : List (Token α)}
    (h : Token.Ends op.priority tokens) (waiting : List Pending) :
    orderFrom (.operator op :: waiting) tokens = .apply op :: orderFrom waiting tokens := by
  unfold Token.Ends at h
  split at h
  · rfl
  · simp [orderFrom, Pending.splitGroup]
  · next next rest =>
    simp [orderFrom, Pending.splitTighter, h.1, h.2]
  · cases h
  · cases h

namespace Infix

/-- The lowest priority among the operators that may still be pending after the tree. -/
def tightness : Infix α → Nat
  | leaf _ => 0xffffffff
  | unary .. => 5
  | binary op .. => op.priority

theorem le_tightness_of_left {op : Operator} (hop : op.isUnary = false) {t : Infix α}
    (h : t.leftNeedsParens op = false) : op.priority ≤ t.tightness := by
  cases t with
  | leaf a => exact op.priority_le
  | unary inner _ t => exact Operator.priority_le_of_not_isOther h hop
  | binary inner _ l r =>
    simp only [leftNeedsParens, needsParens, Bool.or_eq_false_iff, decide_eq_false_iff_not,
      Nat.not_lt] at h
    exact h.2

theorem lt_tightness_of_right {op inner : Operator} {isBinary : inner.isUnary = false}
    {l r : Infix α} (h : (binary inner isBinary l r).rightNeedsParens op = false) :
    op.priority < inner.priority := by
  simp only [rightNeedsParens, needsParens, Bool.or_eq_false_iff, decide_eq_false_iff_not,
    Nat.not_le] at h
  exact h.2

theorem le_tightness_of_right {op : Operator} (hop : op.isUnary = false) {t : Infix α}
    (h : t.rightNeedsParens op = false) : op.priority ≤ t.tightness := by
  cases t with
  | leaf a => exact op.priority_le
  | unary inner _ t => exact Operator.priority_le_of_not_isOther h hop
  | binary inner _ l r => exact Nat.le_of_lt (lt_tightness_of_right h)

/-- Whatever waits before the tree and follows it, as long as the tree's own operators are neither
applied too early nor take a neighbour for their operand. -/
theorem orderFrom_rendering {enclosed : Bool} {t : Infix α} {tokens : List (Token α)}
    (h : Renders enclosed t tokens) {waiting : List Pending} {rest : List (Token α)}
    (before : enclosed = false → t.isBinary → Pending.Blocks t.tightness waiting)
    (after : enclosed = false → Token.Ends t.tightness rest) :
    orderFrom waiting (tokens ++ rest) = t.postfixOrder ++ orderFrom waiting rest := by
  induction h generalizing waiting rest with
  | leaf a => rfl
  | @parens _ t tokens _ ih =>
    have inner : orderFrom (.opening :: waiting) (tokens ++ .closing :: rest) =
        t.postfixOrder ++ orderFrom (.opening :: waiting) (.closing :: rest) :=
      ih (fun _ _ op hop => by cases hop) (fun _ => trivial)
    simpa [orderFrom, Pending.splitGroup] using inner
  | @unary enclosed op isUnary t tokens _ parens ih =>
    have ends := after rfl
    have operand : orderFrom (.operator op :: waiting) (tokens ++ rest) =
        t.postfixOrder ++ orderFrom (.operator op :: waiting) rest := by
      refine ih (fun he hb => ?_) fun he => ends.mono ?_
      · rw [parens hb] at he
        cases he
      · cases t with
        | leaf a => simp [tightness]
        | unary => exact Nat.le_refl _
        | binary => rw [parens rfl] at he; cases he
    have applied := orderFrom_pending (ends.mono (Operator.priority_of_isUnary isUnary)) waiting
    rw [List.cons_append, orderFrom, if_pos isUnary, operand, applied]
    simp [postfixOrder]
  | @binary enclosed enclosed' op isBinary l r left right _ _ parens parens' ihl ihr =>
    have ends : Token.Ends op.priority rest := after rfl
    have blocks : Pending.Blocks op.priority waiting := before rfl rfl
    have looseLeft (he : enclosed = false) : l.leftNeedsParens op = false := by
      simpa [he] using parens
    have looseRight (he : enclosed' = false) : r.rightNeedsParens op = false := by
      simpa [he] using parens'
    have first : orderFrom waiting (left ++ .operator op :: (right ++ rest)) =
        l.postfixOrder ++ orderFrom waiting (.operator op :: (right ++ rest)) := by
      refine ihl (fun he _ => ?_) fun he => ⟨isBinary, ?_⟩
      · exact blocks.mono (le_tightness_of_left isBinary (looseLeft he))
      · exact le_tightness_of_left isBinary (looseLeft he)
    have second : orderFrom (.operator op :: waiting) (right ++ rest) =
        r.postfixOrder ++ orderFrom (.operator op :: waiting) rest := by
      refine ihr (fun he hb => ?_) fun he => ends.mono (le_tightness_of_right isBinary ?_)
      · cases r with
        | leaf | unary => cases hb
        | binary inner =>
          intro pending hp
          cases hp
          exact lt_tightness_of_right (looseRight he)
      · exact looseRight he
    have pushed : orderFrom waiting (.operator op :: (right ++ rest)) =
        orderFrom (.operator op :: waiting) (right ++ rest) := by
      simp [orderFrom, isBinary, Pending.splitTighter_of_blocks blocks]
    rw [List.append_assoc, List.cons_append, first, pushed, second, orderFrom_pending ends]
    simp [postfixOrder]

/-- Parentheses where they are needed. -/
def enclose (needed : Bool) (tokens : List (Token α)) : List (Token α) :=
  if needed then .opening :: tokens ++ [.closing] else tokens

/-- The rendering with the fewest parentheses. -/
def render : Infix α → List (Token α)
  | leaf a => [.leaf a]
  | unary op _ t => .operator op :: enclose t.isBinary t.render
  | binary op _ l r => enclose (l.leftNeedsParens op) l.render ++
      .operator op :: enclose (r.rightNeedsParens op) r.render

theorem Renders.enclose {t : Infix α} {tokens : List (Token α)} (h : Renders false t tokens)
    (needed : Bool) : Renders needed t (enclose needed tokens) := by
  cases needed with
  | false => exact h
  | true => exact .parens h

/-- Every tree has a rendering. -/
theorem renders_render (t : Infix α) : Renders false t t.render := by
  induction t with
  | leaf a => exact .leaf a
  | unary op isUnary t ih => exact .unary (ih.enclose t.isBinary) id
  | binary op isBinary l r ihl ihr =>
    exact .binary (ihl.enclose (l.leftNeedsParens op)) (ihr.enclose (r.rightNeedsParens op)) id id

theorem Renders.evaluationOrder_eq {enclosed : Bool} {t : Infix α} {tokens : List (Token α)}
    (h : Renders enclosed t tokens) : evaluationOrder tokens = t.postfixOrder := by
  have order : evaluationOrder (tokens ++ []) = t.postfixOrder ++ [] :=
    orderFrom_rendering h (fun _ _ op hop => by cases hop) (fun _ => trivial)
  rwa [List.append_nil, List.append_nil] at order

/-- Every tree can be written down, and however many parentheses it is written with, the operators
apply in the tree's own order. -/
theorem order_of_renders (t : Infix Leaf) : (∃ tokens, t.Renders false tokens) ∧
    ∀ enclosed (e : Expression), t.Renders enclosed e.tokens → e.order = t.postfixOrder :=
  ⟨⟨t.render, renders_render t⟩, fun _ _ h => h.evaluationOrder_eq⟩

def named (name : String) : Leaf := .identifier ⟨0, name⟩

/-- A quotient whose operands are a quotient and an unrecognised operation. -/
def mixed : Infix Leaf :=
  .binary .divide rfl
    (.binary .divide rfl (.leaf (named "a"))
      (.binary .power rfl (.unary .not rfl (.leaf (named "b"))) (.leaf (named "c"))))
    (.binary (.other "?") rfl (.leaf (named "d")) (.unary .negate rfl (.leaf (named "e"))))

/-- The first pair of parentheses could be left out, the second one could not. -/
def mixedTokens : List (Token Leaf) :=
  [.opening, .leaf (named "a"), .operator .divide, .operator .not, .leaf (named "b"),
    .operator .power, .leaf (named "c"), .closing, .operator .divide, .leaf (named "d"),
    .operator (.other "?"), .opening, .operator .negate, .leaf (named "e"), .closing]

theorem order_of_renders_mixed : mixed.Renders false mixedTokens ∧
    Expression.order ⟨0, mixedTokens⟩ =
      [.operand (named "a"), .operand (named "b"), .apply .not, .operand (named "c"), .apply .power,
        .apply .divide, .operand (named "d"), .operand (named "e"), .apply .negate,
        .apply (.other "?"), .apply .divide] := by
  have renders : mixed.Renders false mixedTokens :=
    .binary (.parens (renders_render _)) (renders_render _) (fun _ => rfl) (by decide)
  exact ⟨renders, (order_of_renders mixed).2 false ⟨0, mixedTokens⟩ renders⟩

def leaves : Infix α → List α
  | leaf a => [a]
  | unary _ _ t => t.leaves
  | binary _ _ l r => l.leaves ++ r.leaves

theorem Renders.mem_tokens {enclosed : Bool} {t : Infix α} {tokens : List (Token α)}
    (h : Renders enclosed t tokens) {a : α} (ha : a ∈ t.leaves) : .leaf a ∈ tokens := by
  induction h with
  | leaf b => simpa [leaves] using ha
  | parens _ ih => simp [ih ha]
  | unary _ _ ih => simp [ih ha]
  | binary _ _ _ _ ihl ihr =>
    obtain ha | ha := List.mem_append.mp ha
    · simp [ihl ha]
    · simp [ihr ha]

section

variable {ω : Type} (target : Lowering ω)

/-- Operands first, as the stack wants them. -/
def lower : Infix Leaf → List ω
  | leaf l => target.leaf l
  | unary op _ t => t.lower ++ [target.operator op]
  | binary op _ l r => l.lower ++ r.lower ++ [target.operator op]

theorem lower_eq (t : Infix Leaf) : t.lower target =
    t.postfixOrder.flatMap fun step => (step.map target.leaf).code target.operator := by
  induction t with
  | leaf l => simp [lower, postfixOrder, Step.map, Step.code]
  | unary op _ t ih => simp [lower, postfixOrder, Step.map, Step.code, ih]
  | binary op _ l r ihl ihr => simp [lower, postfixOrder, Step.map, Step.code, ihl, ihr]

theorem Renders.lower_eq {enclosed : Bool} {t : Infix Leaf} {e : Expression}
    (h : Renders enclosed t e.tokens) : target.expression e = t.lower target := by
  rw [Infix.lower_eq, Lowering.expression_eq, Expression.order, h.evaluationOrder_eq]

end

end Infix

end

end StackCompiler
