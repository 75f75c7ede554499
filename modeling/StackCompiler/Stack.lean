/-!
Stacks, seen from the bottom up as plain lists. Taking several values at once either succeeds or
leaves the stack alone.
-/

namespace StackCompiler

/-- The top comes first. -/
structure Stack (α : Type) where
  items : List α := []
deriving Repr, DecidableEq

/-- More values were requested than there are. -/
structure Underflow where
  requested : Nat
  depth : Nat
deriving Repr, DecidableEq

def Underflow.message (u : Underflow) : String :=
  s!"stack underflow: requested {u.requested} values, but only {u.depth} available"

/-- A position below the top is found through a 64-bit count of the values down to it, and the
largest position has no such count. -/
structure PositionOverflow where
deriving Repr, DecidableEq

namespace Stack

variable {α : Type}

/-- From the bottom to the top. -/
def toList (s : Stack α) : List α := s.items.reverse

def depth (s : Stack α) : Nat := s.items.length

def isEmpty (s : Stack α) : Bool := s.items.isEmpty

def push (s : Stack α) (a : α) : Stack α := ⟨a :: s.items⟩

/-- The last value ends up on top. -/
def extend (s : Stack α) (as : List α) : Stack α := ⟨as.reverse ++ s.items⟩

def top? (s : Stack α) : Option α := s.items.head?

def pop? (s : Stack α) : Option (α × Stack α) :=
  match s.items with
  | [] => none
  | a :: rest => some (a, ⟨rest⟩)

def modifyTop (s : Stack α) (f : α → α) : Stack α := ⟨s.items.modifyHead f⟩

/-- Position 0 is the top itself. -/
def below (s : Stack α) (n : UInt64) : Except PositionOverflow (Option α) :=
  if n.toNat + 1 < UInt64.size then .ok s.items[n.toNat]? else .error {}

/-- The topmost `count` values, the top one last, and what is left. -/
def takeTop (s : Stack α) (count : Nat) : List α × Stack α :=
  ((s.items.take count).reverse, ⟨s.items.drop count⟩)

def popMany (s : Stack α) (count : Nat) : Except Underflow (List α × Stack α) :=
  if count ≤ s.depth then .ok (s.takeTop count) else .error ⟨count, s.depth⟩

/-- The value nearest to the top that has the property. -/
def nearest? (s : Stack α) (p : α → Bool) : Option α := s.items.find? p

/-- Replaces the first value that the function has a replacement for. -/
def updateFirst (f : α → Option α) : List α → Option (List α)
  | [] => none
  | a :: rest =>
    match f a with
    | some b => some (b :: rest)
    | none => (updateFirst f rest).map (a :: ·)

/-- Replaces the value nearest to the top that the function has a replacement for. -/
def updateNearest (s : Stack α) (f : α → Option α) : Option (Stack α) :=
  (updateFirst f s.items).map Stack.mk

theorem length_toList (s : Stack α) : s.toList.length = s.depth := by simp [toList, depth]

theorem toList_push (s : Stack α) (a : α) : (s.push a).toList = s.toList ++ [a] := by
  simp [toList, push]

theorem toList_extend (s : Stack α) (as : List α) : (s.extend as).toList = s.toList ++ as := by
  simp [toList, extend]

theorem toList_modifyTop (s : Stack α) (a : α) (f : α → α) :
    ((s.push a).modifyTop f).toList = s.toList ++ [f a] := by
  simp [toList, push, modifyTop]

theorem eq_empty_or_push (s : Stack α) : s = {} ∨ ∃ (t : Stack α) (a : α), s = t.push a := by
  obtain ⟨items⟩ := s
  cases items with
  | nil => exact .inl rfl
  | cons a items => exact .inr ⟨⟨items⟩, a, rfl⟩

theorem top?_push (s : Stack α) (a : α) : (s.push a).top? = some a := rfl

theorem pop?_push (s : Stack α) (a : α) : (s.push a).pop? = some (a, s) := rfl

/-- Counted from the top, positions are counted from the end of the list. -/
theorem getElem?_items (s : Stack α) (i : Nat) : s.items[i]? =
    if h : i < s.toList.length then some s.toList[s.toList.length - 1 - i] else none := by
  have length : s.items.length = s.toList.length := List.length_reverse.symm
  split
  · next inside =>
    rw [← length] at inside
    have whole : s.items.length - 1 - (s.items.length - 1 - i) = i := by omega
    simp [toList, inside, whole]
  · next outside => exact List.getElem?_eq_none (length ▸ Nat.le_of_not_lt outside)

theorem fst_takeTop (s : Stack α) (count : Nat) :
    (s.takeTop count).1 = s.toList.drop (s.toList.length - count) := by
  simp [takeTop, toList, List.reverse_take]

theorem toList_snd_takeTop (s : Stack α) (count : Nat) :
    (s.takeTop count).2.toList = s.toList.take (s.toList.length - count) := by
  simp [takeTop, toList, List.reverse_drop]

theorem takeTop_extend (s : Stack α) (as : List α) :
    (s.extend as).takeTop as.length = (as, s) := by
  simp [takeTop, extend]

theorem extend_takeTop (s : Stack α) (count : Nat) :
    (s.takeTop count).2.extend (s.takeTop count).1 = s := by
  simp [takeTop, extend]

theorem depth_takeTop (s : Stack α) (count : Nat) :
    (s.takeTop count).2.depth = s.depth - count := by
  simp [takeTop, depth]

theorem popMany_of_le {s : Stack α} {count : Nat} (h : count ≤ s.depth) :
    s.popMany count = .ok (s.takeTop count) := if_pos h

theorem popMany_of_lt {s : Stack α} {count : Nat} (h : s.depth < count) :
    s.popMany count = .error ⟨count, s.depth⟩ := if_neg (Nat.not_le_of_lt h)

theorem popMany_eq_ok {s : Stack α} {count : Nat} {result : List α × Stack α}
    (h : s.popMany count = .ok result) : count ≤ s.depth ∧ s.takeTop count = result := by
  obtain few | enough := Nat.lt_or_ge s.depth count
  · rw [popMany_of_lt few] at h
    cases h
  · rw [popMany_of_le enough] at h
    exact ⟨enough, Except.ok.inj h⟩

/-- What was pushed last is what is popped. -/
theorem popMany_extend (s : Stack α) (as : List α) :
    (s.extend as).popMany as.length = .ok (as, s) := by
  have enough : as.length ≤ (s.extend as).depth := by simp [depth, extend]
  rw [popMany_of_le enough, takeTop_extend]

end Stack

end StackCompiler
