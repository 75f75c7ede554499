import StackCompiler.Stack

/-!
Stacks as plain lists whose end is the top. Every operation answers on a stack as it does on the
list and leaves what it leaves there, unless it looks at the largest 64-bit position: the count of
the values down to it wraps around, and the place that comes of it is outside of the stack.
-/

namespace StackCompiler.Stack

/-- Positions below the top and counts of values are 64-bit numbers. -/
inductive Operation (α : Type) where
  | push (a : α)
  | extend (as : List α)
  | pop
  | peek
  | peekBelow (n : UInt64)
  | modify (f : α → α)
  | popMany (count : UInt64)

inductive Answer (α : Type) where
  | nothing
  | found (a : Option α)
  | taken (as : List α)
  | refused (cause : Underflow)
deriving Repr, DecidableEq

variable {α : Type}

/-- A change of the top tells what the top was. -/
def perform (s : Stack α) : Operation α → Except PositionOverflow (Answer α × Stack α)
  | .push a => .ok (.nothing, s.push a)
  | .extend as => .ok (.nothing, s.extend as)
  | .pop =>
    match s.pop? with
    | some (a, rest) => .ok (.found (some a), rest)
    | none => .ok (.found none, s)
  | .peek => .ok (.found s.top?, s)
  | .peekBelow n => (s.below n).map fun a => (.found a, s)
  | .modify f => .ok (.found s.top?, s.modifyTop f)
  | .popMany count =>
    match s.popMany count.toNat with
    | .ok (as, rest) => .ok (.taken as, rest)
    | .error cause => .ok (.refused cause, s)

def performAll (s : Stack α) :
    List (Operation α) → Except PositionOverflow (List (Answer α) × Stack α)
  | [] => .ok ([], s)
  | op :: ops =>
    match s.perform op with
    | .ok (answer, s) => (s.performAll ops).map fun (answers, s) => (answer :: answers, s)
    | .error overflow => .error overflow

namespace Operation

/-- What the operation answers on a list whose end is the top, and the list that it leaves. -/
def onList (l : List α) : Operation α → Answer α × List α
  | push a => (.nothing, l ++ [a])
  | extend as => (.nothing, l ++ as)
  | pop => (.found l.getLast?, l.dropLast)
  | peek => (.found l.getLast?, l)
  | peekBelow n =>
    (.found (if h : n.toNat < l.length then some l[l.length - 1 - n.toNat] else none), l)
  | modify f => (.found l.getLast?, l.dropLast ++ (l.getLast?.map f).toList)
  | popMany count =>
    if count.toNat ≤ l.length then
      (.taken (l.drop (l.length - count.toNat)), l.take (l.length - count.toNat))
    else (.refused ⟨count.toNat, l.length⟩, l)

def allOnList (l : List α) : List (Operation α) → List (Answer α) × List α
  | [] => ([], l)
  | op :: ops =>
    let (answer, l) := op.onList l
    let (answers, l) := allOnList l ops
    (answer :: answers, l)

/-- The 64-bit count of the values down to the position wraps around. -/
def overflows : Operation α → Bool
  | peekBelow n => n + 1 == 0
  | _ => false

end Operation

/-- The place, from the bottom, above which so many values lie, if there are so many. -/
def place? (depth count : UInt64) : Option UInt64 :=
  if count ≤ depth then some (depth - count) else none

/-- Looks at the lowest of the values down to the position; a place without a value is an error. -/
def belowByPlace (s : Stack α) (n : UInt64) : Except PositionOverflow (Option α) :=
  match place? (.ofNat s.depth) (n + 1) with
  | some i =>
    match s.toList[i.toNat]? with
    | some a => .ok (some a)
    | none => .error {}
  | none => .ok none

/-- Cuts the stack at the place. -/
def popManyByPlace (s : Stack α) (count : UInt64) : Except Underflow (List α × List α) :=
  match place? (.ofNat s.depth) count with
  | some i => .ok (s.toList.drop i.toNat, s.toList.take i.toNat)
  | none => .error ⟨count.toNat, s.depth⟩

/-- The list that is left with a result. -/
def view {β : Type} (result : β × Stack α) : β × List α := (result.1, result.2.toList)

open Operation

variable (s : Stack α)

theorem view_takeTop (count : Nat) : view (s.takeTop count) =
    (s.toList.drop (s.toList.length - count), s.toList.take (s.toList.length - count)) :=
  Prod.ext (s.fst_takeTop count) (s.toList_snd_takeTop count)

theorem add_one_eq_zero_iff (n : UInt64) : n + 1 = 0 ↔ ¬ n.toNat + 1 < UInt64.size := by
  have size : UInt64.size = 2 ^ 64 := rfl
  have := n.toNat_lt
  rw [← UInt64.toNat_inj, UInt64.toNat_add, UInt64.toNat_one, UInt64.toNat_zero]
  omega

theorem below_eq (n : UInt64) :
    s.below n = if n + 1 = 0 then .error {} else .ok s.items[n.toNat]? := by
  have wraps := add_one_eq_zero_iff n
  rw [below]
  by_cases counted : n.toNat + 1 < UInt64.size
  · rw [if_pos counted, if_neg fun zero => wraps.mp zero counted]
  · rw [if_neg counted, if_pos (wraps.mpr counted)]

/-- In 64-bit arithmetic the place is where it is among the natural numbers. -/
theorem place?_of_le {depth : Nat} (addressable : depth < UInt64.size) (count : UInt64)
    (enough : count.toNat ≤ depth) :
    ∃ i, place? (.ofNat depth) count = some i ∧ i.toNat = depth - count.toNat := by
  have value : (UInt64.ofNat depth).toNat = depth := UInt64.toNat_ofNat_of_lt' addressable
  have le : count ≤ .ofNat depth := by rwa [UInt64.le_iff_toNat_le, value]
  exact ⟨_, if_pos le, by rw [UInt64.toNat_sub_of_le _ _ le, value]⟩

theorem place?_of_lt {depth : Nat} {count : UInt64} (addressable : depth < UInt64.size)
    (few : depth < count.toNat) : place? (.ofNat depth) count = none := by
  refine if_neg fun le => ?_
  rw [UInt64.le_iff_toNat_le, UInt64.toNat_ofNat_of_lt' addressable] at le
  exact Nat.not_le_of_lt few le

/-- Where the count wraps around to zero, the place is the one behind the top. -/
theorem below_eq_belowByPlace (addressable : s.depth < UInt64.size) (n : UInt64) :
    s.below n = s.belowByPlace n := by
  have length := s.length_toList
  rw [below_eq, belowByPlace]
  split
  · next zero =>
    obtain ⟨i, hi, behind⟩ := place?_of_le addressable 0 (Nat.zero_le _)
    have outside : s.toList[i.toNat]? = none :=
      List.getElem?_eq_none (by rw [behind, length, UInt64.toNat_zero]; exact Nat.le_refl _)
    rw [zero, hi]
    simp only [outside]
  · next counted =>
    have lt : n.toNat + 1 < UInt64.size :=
      Decidable.of_not_not fun h => counted ((add_one_eq_zero_iff n).mpr h)
    have succ : (n + 1).toNat = n.toNat + 1 := by
      rw [UInt64.toNat_add, UInt64.toNat_one]
      exact Nat.mod_eq_of_lt lt
    obtain inside | outside := Nat.lt_or_ge n.toNat s.depth
    · obtain ⟨i, hi, place⟩ := place?_of_le addressable (n + 1) (by omega)
      have sum : i.toNat + n.toNat + 1 = s.items.length := by
        rw [depth] at inside place
        omega
      have same : s.toList[i.toNat]? = s.items[n.toNat]? := List.getElem?_reverse' sum
      rw [hi]
      simp only [same, List.getElem?_eq_getElem inside]
    · rw [place?_of_lt addressable (by omega), List.getElem?_eq_none outside]

theorem popMany_eq_popManyByPlace (addressable : s.depth < UInt64.size) (count : UInt64) :
    (s.popMany count.toNat).map view = s.popManyByPlace count := by
  rw [popManyByPlace]
  obtain few | enough := Nat.lt_or_ge s.depth count.toNat
  · rw [popMany_of_lt few, place?_of_lt addressable few]
    rfl
  · obtain ⟨i, hi, place⟩ := place?_of_le addressable count enough
    rw [popMany_of_le enough, hi]
    dsimp only
    rw [place, ← length_toList]
    exact congrArg Except.ok (s.view_takeTop _)

/-- One operation on the stack is that operation on the list. -/
theorem perform_eq (op : Operation α) : (s.perform op).map view =
    if op.overflows then .error {} else .ok (op.onList s.toList) := by
  cases op with
  | push a => exact congrArg (fun l => Except.ok (Answer.nothing, l)) (s.toList_push a)
  | extend as => exact congrArg (fun l => Except.ok (Answer.nothing, l)) (s.toList_extend as)
  | pop =>
    obtain rfl | ⟨t, a, rfl⟩ := s.eq_empty_or_push
    · rfl
    · simp [perform, pop?_push, overflows, onList, view, toList_push, Except.map]
  | peek =>
    obtain rfl | ⟨t, a, rfl⟩ := s.eq_empty_or_push
    · rfl
    · simp [perform, top?_push, overflows, onList, view, toList_push, Except.map]
  | peekBelow n =>
    simp only [perform, below_eq, overflows, onList, beq_iff_eq, ← getElem?_items]
    split <;> rfl
  | modify f =>
    obtain rfl | ⟨t, a, rfl⟩ := s.eq_empty_or_push
    · rfl
    · simp [perform, top?_push, overflows, onList, view, toList_push, toList_modifyTop, Except.map]
  | popMany count => -- the count is compared with the depth before anything is subtracted
    have length := s.length_toList
    simp only [perform, overflows, onList, length]
    obtain few | enough := Nat.lt_or_ge s.depth count.toNat
    · rw [popMany_of_lt few, if_neg (Nat.not_le_of_lt few)]
      rfl
    · rw [popMany_of_le enough, if_pos enough, ← length]
      exact congrArg (fun r => Except.ok (Answer.taken r.1, r.2)) (s.view_takeTop _)

theorem performAll_eq (ops : List (Operation α)) : (s.performAll ops).map view =
    if ops.any overflows then .error {} else .ok (allOnList s.toList ops) := by
  induction ops generalizing s with
  | nil => rfl
  | cons op ops ih =>
    have first := s.perform_eq op
    rw [performAll, List.any_cons]
    cases hp : s.perform op with
    | error overflow =>
      rw [hp] at first
      split at first
      · next wraps =>
        rw [wraps]
        rfl
      · cases first
    | ok result =>
      obtain ⟨answer, t⟩ := result
      rw [hp] at first
      split at first
      · cases first
      · next counted =>
        have head : op.onList s.toList = (answer, t.toList) := (Except.ok.inj first).symm
        have later (r : Except PositionOverflow (List (Answer α) × Stack α)) :
            (r.map fun (answers, s) => (answer :: answers, s)).map view =
              (r.map view).map fun (answers, l) => (answer :: answers, l) := by
          cases r <;> rfl
        rw [later, ih t, eq_false_of_ne_true counted, Bool.false_or, allOnList, head]
        split <;> rfl

/-- The largest position is the only one whose count wraps around. -/
theorem overflows_peekBelow_iff (n : UInt64) :
    (Operation.peekBelow n : Operation α).overflows ↔ n = 18446744073709551615 := by
  have largest : (18446744073709551615 : UInt64).toNat = UInt64.size - 1 := rfl
  have size : UInt64.size = 2 ^ 64 := rfl
  have bound := n.toNat_lt
  rw [overflows, beq_iff_eq, add_one_eq_zero_iff, ← UInt64.toNat_inj, largest]
  omega

/-- A sequence of operations answers as on the list whose end is the top and leaves that list,
unless it looks at the largest position, where it has no answer although no list has a value so far
from its end. In 64-bit arithmetic both kinds of access from the top find the place from the bottom
where the list has it, if only the depth is a 64-bit number; at the largest position alone that
place is outside of the stack. -/
theorem performAll_refines (ops : List (Operation α)) :
    ((s.performAll ops).map view =
      if ops.any overflows then .error {} else .ok (allOnList s.toList ops)) ∧
    (∀ n, (Operation.peekBelow n : Operation α).overflows ↔ n = 18446744073709551615) ∧
    (s.depth < UInt64.size → ∀ n, s.below n = s.belowByPlace n ∧
      (s.popMany n.toNat).map view = s.popManyByPlace n) :=
  ⟨s.performAll_eq ops, overflows_peekBelow_iff, fun addressable n =>
    ⟨s.below_eq_belowByPlace addressable n, s.popMany_eq_popManyByPlace addressable n⟩⟩

/-- The list answers that there is no such value, and the stack has no answer. -/
theorem performAll_refines_largest :
    let s : Stack Nat := ⟨[1]⟩
    (s.performAll [.push 2, .peekBelow 1, .peekBelow 18446744073709551615]).map view = .error {} ∧
      s.belowByPlace 18446744073709551615 = .error {} ∧
      (Operation.peekBelow 18446744073709551615).onList s.toList = (.found none, [1]) := by
  intro s
  obtain ⟨run, -, places⟩ :=
    s.performAll_refines [.push 2, .peekBelow 1, .peekBelow 18446744073709551615]
  exact ⟨run, (places (by decide) _).1.symm, rfl⟩

end StackCompiler.Stack
