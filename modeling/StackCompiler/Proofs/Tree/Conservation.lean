import StackCompiler.Proofs.Tree.Order

/-!
From the tokens of an expression to its evaluation order nothing is lost and nothing comes twice, but
for parentheses, which vanish. Parentheses without partners and operators without operands make no
difference.
-/

namespace StackCompiler

variable {α : Type}

def Token.isParenthesis : Token α → Bool
  | .opening | .closing => true
  | .leaf _ | .operator _ => false

/-- The token that the step stands for. -/
def Step.token : Step α → Token α
  | .operand a => .leaf a
  | .apply op => .operator op

namespace Pending

/-- The operators that apply and those that go on waiting are all that there were. -/
theorem operators_splitTighter (priority : Nat) (waiting : List Pending) :
    (splitTighter priority waiting).1 ++ operators (splitTighter priority waiting).2 =
      operators waiting := by
  induction waiting with
  | nil => rfl
  | cons head rest ih =>
    cases head with
    | opening => rfl
    | operator op =>
      unfold splitTighter
      split
      · exact congrArg (op :: ·) ih
      · rfl

theorem operators_splitGroup (waiting : List Pending) :
    (splitGroup waiting).1 ++ operators (splitGroup waiting).2 = operators waiting := by
  induction waiting with
  | nil => rfl
  | cons head rest ih =>
    cases head with
    | opening => rfl
    | operator op => exact congrArg (op :: ·) ih

end Pending

theorem Step.map_token_apply (ops : List Operator) :
    (ops.map Step.apply).map Step.token = ops.map (Token.operator (α := α)) := List.map_map

/-- What waits and what has come gets the token more, unless that is a parenthesis. -/
theorem perm_advance (waiting : List Pending) (token : Token α) :
    ((advance waiting token).1.map Step.token ++
        (Pending.operators (advance waiting token).2).map Token.operator).Perm
      ((Pending.operators waiting).map Token.operator ++
        [token].filter fun token : Token α => !token.isParenthesis) := by
  cases token with
  | leaf a => exact (List.perm_append_singleton _ _).symm
  | opening => exact .of_eq (List.append_nil _).symm
  | closing =>
    rw [advance, Step.map_token_apply, ← List.map_append, Pending.operators_splitGroup]
    exact .of_eq (List.append_nil _).symm
  | operator op =>
    rw [advance]
    split
    · exact (List.perm_append_singleton _ _).symm
    · rw [Step.map_token_apply, ← Pending.operators_splitTighter op.priority waiting,
        List.map_append, List.append_assoc]
      exact (List.perm_append_singleton _ _).symm.append_left _

/-- What waits and what comes is applied in the end, each operator once. -/
theorem perm_orderFrom (waiting : List Pending) (tokens : List (Token α)) :
    ((orderFrom waiting tokens).map Step.token).Perm
      ((Pending.operators waiting).map Token.operator ++
        tokens.filter fun token : Token α => !token.isParenthesis) := by
  induction tokens generalizing waiting with
  | nil =>
    rw [orderFrom, Step.map_token_apply, List.filter_nil, List.append_nil]
  | cons token tokens ih =>
    have later := (ih (advance waiting token).2).append_left
      ((advance waiting token).1.map Step.token)
    have now := (perm_advance waiting token).append_right
      (tokens.filter fun token : Token α => !token.isParenthesis)
    rw [List.append_assoc, List.append_assoc, ← List.filter_append] at now
    rw [orderFrom_cons, List.map_append]
    exact later.trans now

/-- Only a leaf brings an operand, and it does so at once. -/
theorem filter_isLeaf_advance (waiting : List Pending) (token : Token α) :
    ((advance waiting token).1.map Step.token).filter Token.isLeaf =
      [token].filter Token.isLeaf := by
  have applied (ops : List Operator) :
      ((ops.map Step.apply).map Step.token).filter (Token.isLeaf (α := α)) = [] := by
    simp [Step.token, Token.isLeaf]
  cases token with
  | leaf a | opening => rfl
  | closing => exact applied _
  | operator op =>
    rw [advance]
    split
    · rfl
    · exact applied _

theorem filter_isLeaf_orderFrom (waiting : List Pending) (tokens : List (Token α)) :
    ((orderFrom waiting tokens).map Step.token).filter Token.isLeaf =
      tokens.filter Token.isLeaf := by
  induction tokens generalizing waiting with
  | nil => simp [orderFrom, Step.token, Token.isLeaf]
  | cons token tokens ih =>
    rw [orderFrom_cons, List.map_append, List.filter_append, filter_isLeaf_advance, ih,
      ← List.filter_append, List.singleton_append]

theorem Step.token_injective : Function.Injective (Step.token (α := α)) := by
  intro step step' h
  cases step <;> cases step' <;> cases h <;> rfl

/-- What is evaluated is what is written. -/
theorem Expression.mem_order {e : Expression} {step : Step Leaf} :
    step ∈ e.order ↔ step.token ∈ e.tokens := by
  have perm : (e.order.map Step.token).Perm
      (e.tokens.filter fun token : Token Leaf => !token.isParenthesis) := perm_orderFrom [] e.tokens
  have written : step.token.isParenthesis = false := by cases step <;> rfl
  rw [← List.mem_map_of_injective Step.token_injective, perm.mem_iff, List.mem_filter]
  simp [written]

/-- Whatever the tokens are, no parenthesis is left of them, every operand and every operator comes as
often as before, and the operands come in the order in which they came. -/
theorem evaluationOrder_conserves (tokens : List (Token α)) :
    (∀ token ∈ (evaluationOrder tokens).map Step.token, token.isParenthesis = false) ∧
      ((evaluationOrder tokens).map Step.token).Perm
        (tokens.filter fun token : Token α => !token.isParenthesis) ∧
      ((evaluationOrder tokens).map Step.token).filter Token.isLeaf =
        tokens.filter Token.isLeaf := by
  have perm : ((evaluationOrder tokens).map Step.token).Perm
      (tokens.filter fun token : Token α => !token.isParenthesis) := perm_orderFrom [] tokens
  refine ⟨?_, perm, filter_isLeaf_orderFrom [] tokens⟩
  intro token htoken
  have kept := (List.mem_filter.mp (perm.mem_iff.mp htoken)).2
  simpa using kept

end StackCompiler
