import StackCompiler.Proofs.Tree.Order

/-!
Groups in parentheses. Within a group with balanced parentheses everything is settled: what waits
outside is neither applied nor changed, and nothing of the group waits behind it. So the group stands
for one operand, whatever is around it.
-/

namespace StackCompiler

variable {α : Type}

/-- The tokens close so many parentheses that were open before, and all of their own. -/
def Token.closes : Nat → List (Token α) → Bool
  | depth, [] => depth == 0
  | depth, .opening :: tokens => closes (depth + 1) tokens
  | 0, .closing :: _ => false
  | depth + 1, .closing :: tokens => closes depth tokens
  | depth, .leaf _ :: tokens => closes depth tokens
  | depth, .operator _ :: tokens => closes depth tokens

/-- Every parenthesis has its partner. -/
def Token.balanced (tokens : List (Token α)) : Bool := closes 0 tokens

namespace Pending

/-- How many parentheses wait to be closed. -/
def openings : List Pending → Nat
  | [] => 0
  | .opening :: rest => openings rest + 1
  | .operator _ :: rest => openings rest

/-- What waits above the opening parenthesis of a group is all that ever applies within it. -/
theorem splitTighter_above (priority : Nat) (inner below : List Pending) :
    splitTighter priority (inner ++ .opening :: below) =
      ((splitTighter priority inner).1, (splitTighter priority inner).2 ++ .opening :: below) := by
  induction inner with
  | nil => rfl
  | cons head rest ih =>
    cases head with
    | opening => rfl
    | operator op =>
      rw [List.cons_append, splitTighter, splitTighter, ih]
      split
      · rfl
      · rfl

theorem openings_splitTighter (priority : Nat) (waiting : List Pending) :
    openings (splitTighter priority waiting).2 = openings waiting := by
  induction waiting with
  | nil => rfl
  | cons head rest ih =>
    cases head with
    | opening => rfl
    | operator op =>
      rw [splitTighter]
      split
      · exact ih
      · rfl

/-- Without an open parenthesis within, the group ends here. -/
theorem splitGroup_above {inner : List Pending} (h : openings inner = 0) (below : List Pending) :
    splitGroup (inner ++ .opening :: below) = (operators inner, below) := by
  induction inner with
  | nil => rfl
  | cons head rest ih =>
    cases head with
    | opening => cases h
    | operator op =>
      have split := ih h
      rw [List.cons_append, splitGroup, split]
      rfl

/-- With one, a smaller group within ends. -/
theorem splitGroup_within {inner : List Pending} (h : openings inner ≠ 0) (below : List Pending) :
    splitGroup (inner ++ below) = ((splitGroup inner).1, (splitGroup inner).2 ++ below) ∧
      openings inner = openings (splitGroup inner).2 + 1 := by
  induction inner with
  | nil => exact absurd rfl h
  | cons head rest ih =>
    cases head with
    | opening => exact ⟨rfl, rfl⟩
    | operator op =>
      obtain ⟨split, count⟩ := ih h
      refine ⟨?_, count⟩
      rw [List.cons_append, splitGroup, split]
      rfl

end Pending

/-- At a token of the group, what waits outside is left alone, and the parentheses that wait within
are those that the tokens behind it still have to close. -/
theorem advance_within {inner : List Pending} {token : Token α} {tokens : List (Token α)}
    (h : Token.closes (Pending.openings inner) (token :: tokens)) (below : List Pending) :
    advance (inner ++ .opening :: below) token =
        ((advance inner token).1, (advance inner token).2 ++ .opening :: below) ∧
      Token.closes (Pending.openings (advance inner token).2) tokens := by
  cases token with
  | leaf a => exact ⟨rfl, h⟩
  | opening => exact ⟨rfl, h⟩
  | closing =>
    -- The partner stands within the group, since the depth has not come down to zero.
    have partner : Pending.openings inner ≠ 0 := by
      intro settled
      rw [settled] at h
      cases h
    obtain ⟨split, count⟩ := Pending.splitGroup_within partner (.opening :: below)
    rw [count] at h
    refine ⟨?_, h⟩
    rw [advance, advance, split]
  | operator op =>
    rw [advance, advance]
    by_cases hop : op.isUnary
    · rw [if_pos hop, if_pos hop]
      exact ⟨rfl, h⟩
    · rw [if_neg hop, if_neg hop, Pending.splitTighter_above]
      refine ⟨rfl, ?_⟩
      have inside : Token.closes (Pending.openings inner) tokens := h
      rwa [← Pending.openings_splitTighter op.priority inner] at inside

/-- The steps of the group come from what waits within it alone, and behind it the same waits as
before it. -/
theorem orderFrom_group (inner : List Pending) {tokens : List (Token α)}
    (h : Token.closes (Pending.openings inner) tokens) (below : List Pending)
    (rest : List (Token α)) :
    orderFrom (inner ++ .opening :: below) (tokens ++ .closing :: rest) =
      orderFrom inner tokens ++ orderFrom below rest := by
  induction tokens generalizing inner with
  | nil =>
    have settled : Pending.openings inner = 0 := by simpa [Token.closes] using h
    simp [orderFrom, Pending.splitGroup_above settled]
  | cons token tokens ih =>
    obtain ⟨outside, inside⟩ := advance_within h below
    rw [List.cons_append, orderFrom_cons, outside, ih _ inside, orderFrom_cons, List.append_assoc]

/-- The order of the whole, with an operand in place of the group, has the operand once; with the
group it has there the order of the group. -/
theorem evaluationOrder_group (x : α) (before inner after : List (Token α))
    (hbefore : .leaf x ∉ before) (hafter : .leaf x ∉ after) (hinner : Token.balanced inner) :
    ∃ first last, evaluationOrder (before ++ .leaf x :: after) = first ++ .operand x :: last ∧
      .operand x ∉ first ∧ .operand x ∉ last ∧
      evaluationOrder (before ++ .opening :: inner ++ .closing :: after) =
        first ++ evaluationOrder inner ++ last := by
  obtain ⟨first, left, reads⟩ := orderFrom_append [] before
  have own (h : .operand x ∈ first) : .leaf x ∈ before := by
    have alone : orderFrom [] before = first ++ orderFrom left [] := by simpa using reads []
    apply operand_mem_orderFrom.mp
    rw [alone]
    exact List.mem_append_left _ h
  refine ⟨first, orderFrom left after, reads _, fun h => hbefore (own h), ?_, ?_⟩
  · intro h
    exact hafter (operand_mem_orderFrom.mp h)
  · have group : orderFrom left (.opening :: inner ++ .closing :: after) =
        evaluationOrder inner ++ orderFrom left after := orderFrom_group [] hinner left after
    rw [evaluationOrder, List.append_assoc, reads, group, List.append_assoc]

/-- Neither the group nor what is around it makes sense by itself. -/
theorem evaluationOrder_group_stray : ∃ first last : List (Step Nat),
    [.apply .add, .operand 1, .operand 0, .apply .negate, .apply .multiply, .operand 5,
      .apply .subtract] = first ++ .operand 0 :: last ∧
    [.apply .add, .operand 1, .operand 2, .operand 3, .apply .divide, .operand 4,
      .apply (.other "?"), .apply .negate, .apply .multiply, .operand 5, .apply .subtract] =
        first ++ [.operand 2, .operand 3, .apply .divide, .operand 4, .apply (.other "?")] ++
          last := by
  obtain ⟨first, last, whole, -, -, group⟩ := evaluationOrder_group 0
    [.closing, .operator .add, .closing, .opening, .leaf 1, .operator .multiply, .operator .negate]
    [.operator (.other "?"), .opening, .leaf 2, .leaf 3, .operator .divide, .closing, .leaf 4]
    [.operator .subtract, .leaf 5, .opening] (by decide) (by decide) rfl
  exact ⟨first, last, whole, group⟩

end StackCompiler
