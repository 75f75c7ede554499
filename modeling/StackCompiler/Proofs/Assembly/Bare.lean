import StackCompiler.Machine.Run

/-!
Code without its comments, and where a position of the code is then.
-/

namespace StackCompiler

namespace Assembly.Code

def bare (code : Code) : Code := code.filter fun i => !i.isComment

/-- Where the position is when the comments are gone. -/
def barePosition (code : Code) (position : Nat) : Nat :=
  position - (code.take position).countP Instruction.isComment

variable {code : Code} {position : Nat} {i : Instruction}

theorem countP_take_le : (code.take position).countP Instruction.isComment ≤ position :=
  Nat.le_trans List.countP_le_length (List.length_take_le _ _)

theorem countP_take_succ (h : code[position]? = some i) :
    (code.take (position + 1)).countP Instruction.isComment =
      (code.take position).countP Instruction.isComment + if i.isComment then 1 else 0 := by
  obtain ⟨hlt, hi⟩ := List.getElem?_eq_some_iff.mp h
  rw [List.take_succ_eq_append_getElem hlt, List.countP_append, hi, List.countP_singleton]

theorem barePosition_comment (h : code[position]? = some i) (hi : i.isComment = true) :
    code.barePosition (position + 1) = code.barePosition position := by
  rw [barePosition, barePosition, countP_take_succ h, if_pos hi, Nat.add_sub_add_right]

theorem barePosition_succ (h : code[position]? = some i) (hi : i.isComment = false) :
    code.barePosition (position + 1) = code.barePosition position + 1 := by
  have := @countP_take_le code position
  rw [barePosition, barePosition, countP_take_succ h, hi]
  simp only [Bool.false_eq_true, if_false]
  omega

theorem length_bare : code.bare.length = code.length - code.countP Instruction.isComment := by
  have := List.length_eq_countP_add_countP Instruction.isComment (l := code)
  rw [bare, ← List.countP_eq_length_filter]
  simp only [Bool.not_eq_true, Bool.decide_eq_false] at this
  omega

/-- Instructions before the position are just as many as before its new place. -/
theorem length_bare_take (h : position ≤ code.length) :
    (bare (code.take position)).length = code.barePosition position := by
  rw [length_bare, List.length_take_of_le h, barePosition]

theorem getElem?_bare (h : code[position]? = some i) (hi : i.isComment = false) :
    code.bare[code.barePosition position]? = some i := by
  obtain ⟨hlt, hget⟩ := List.getElem?_eq_some_iff.mp h
  have whole := List.take_append_drop position code
  rw [List.drop_eq_getElem_cons hlt, hget] at whole
  have split : bare (code.take position ++ i :: code.drop (position + 1)) =
      bare (code.take position) ++ i :: bare (code.drop (position + 1)) := by
    rw [bare, List.filter_append, List.filter_cons, hi]
    rfl
  rw [whole] at split
  rw [split, ← length_bare_take (Nat.le_of_lt hlt), List.getElem?_append_right (Nat.le_refl _),
    Nat.sub_self]
  rfl

theorem getElem?_bare_end (h : code[position]? = none) :
    code.bare[code.barePosition position]? = none := by
  have outside := List.getElem?_eq_none_iff.mp h
  rw [List.getElem?_eq_none_iff, length_bare, barePosition, List.take_of_length_le outside]
  omega

theorem barePosition_cons (i : Instruction) (code : Code) (position : Nat) :
    barePosition (i :: code) (position + 1) =
      code.barePosition position + if i.isComment then 0 else 1 := by
  have := @countP_take_le code position
  rw [barePosition, barePosition, List.take_succ_cons, List.countP_cons]
  split <;> omega

/-- The first definition of a label stays the first one. -/
theorem labelPosition?_bare (code : Code) (l : Label) :
    Machine.labelPosition? code.bare l = (Machine.labelPosition? code l).map code.barePosition := by
  unfold Machine.labelPosition?
  induction code with
  | nil => rfl
  | cons i code ih =>
    rw [bare, List.filter_cons, List.findIdx?_cons]
    by_cases hl : i = .label l
    · subst hl
      simp [List.findIdx?_cons, barePosition, Instruction.isComment]
    · have other : (i == .label l) = false := by simpa using hl
      have later : (code.findIdx? (· == .label l)).map (barePosition (i :: code) ∘ (· + 1)) =
          ((code.findIdx? (· == .label l)).map (barePosition code)).map
            (· + if i.isComment then 0 else 1) := by
        rw [Option.map_map]
        congr 1
        funext position
        exact barePosition_cons i code position
      rw [other, if_neg Bool.false_ne_true, Option.map_map, later, ← ih]
      cases hi : i.isComment with
      | true => simp [bare]
      | false => simp [bare, List.findIdx?_cons, other]

end Assembly.Code

end StackCompiler
