import StackCompiler.Trail

/-!
Waypoints inside of a waypoint. Whatever is done behind a waypoint with the values above it, and
however many waypoints are set and used up there, stale ones among them, going back to it gives the
trail that there was before.
-/

namespace StackCompiler.Trail

inductive Operation (α : Type) where
  | push (a : α)
  | pop
  | waypoint
  | rewind
deriving Repr, DecidableEq

variable {α : Type}

/-- What an operation leaves. Without a value there is nothing to pop. -/
def after (t : Trail α) : Operation α → Trail α
  | .push a => t.push a
  | .pop => (t.pop?.map Prod.snd).getD t
  | .waypoint => t.waypoint
  | .rewind => t.rewind.2

def afterAll (t : Trail α) (ops : List (Operation α)) : Trail α := ops.foldl after t

/-- Behind a waypoint that was set at the base, no pop takes values from the base, and a rewind goes
back to a later waypoint. -/
def Admits (base t : Trail α) : Operation α → Prop
  | .push _ | .waypoint => True
  | .pop => base.depth ≤ (t.after .pop).depth
  | .rewind => base.waypoint.marks.depth < t.marks.depth

def AdmitsAll (base : Trail α) : Trail α → List (Operation α) → Prop
  | _, [] => True
  | t, op :: ops => Admits base t op ∧ AdmitsAll base (t.after op) ops

/-- So many rewinds use up all waypoints that were set later than the one at the base. -/
def rewinds (base t : Trail α) : List (Operation α) :=
  .replicate (t.marks.depth - base.waypoint.marks.depth) .rewind

/-- All values of the base are there, and its waypoints too. Between them and the top are the
waypoint at the base and later ones, none of which is set below the base. -/
structure Behind (base : Trail α) (later : List Nat) (t : Trail α) : Prop where
  values : base.values.items <:+ t.values.items
  marks : t.marks.items = later ++ base.waypoint.marks.items
  above : ∀ mark ∈ later, base.depth ≤ mark

variable {base t : Trail α} {later : List Nat} {mark : Nat} {op : Operation α}
  {ops : List (Operation α)}

theorem behind_waypoint (base : Trail α) : Behind base [] base.waypoint :=
  ⟨List.suffix_rfl, rfl, by simp⟩

theorem Behind.depth_le (h : Behind base later t) : base.depth ≤ t.depth := h.values.length_le

theorem Behind.depth_marks (h : Behind base later t) :
    t.marks.depth = later.length + base.waypoint.marks.depth := by
  rw [Stack.depth, h.marks, List.length_append]
  rfl

/-- As long as enough values are left, the lowest of them are those of the base. -/
theorem Behind.drop (h : Behind base later t) (count : Nat)
    (enough : base.depth ≤ t.depth - count) :
    base.values.items <:+ t.values.items.drop count := by
  refine List.suffix_of_suffix_length_le h.values (List.drop_suffix count _) ?_
  rw [List.length_drop]
  exact enough

theorem Behind.pop (h : Behind base later t) (enough : base.depth ≤ (t.after .pop).depth) :
    Behind base later (t.after .pop) := by
  obtain ⟨⟨items⟩, marks⟩ := t
  cases items with
  | nil => exact h
  | cons a items => exact ⟨h.drop 1 enough, h.marks, h.above⟩

/-- Whether the latest waypoint is stale or not, going back to it uses it up and does not reach the
base. -/
theorem Behind.rewind (h : Behind base (mark :: later) t) :
    Behind base later (t.after .rewind) := by
  obtain ⟨hmark, above⟩ := List.forall_mem_cons.mp h.above
  obtain gone | enough := Nat.lt_or_ge t.depth mark
  · rw [after, rewind_of_lt h.marks gone]
    exact ⟨h.values, rfl, above⟩
  · have left : base.depth ≤ t.depth - (t.depth - mark) := by omega
    rw [after, rewind_of_le h.marks enough]
    exact ⟨h.drop _ left, rfl, above⟩

theorem Behind.step (h : Behind base later t) (admitted : Admits base t op) :
    ∃ later', Behind base later' (t.after op) := by
  cases op with
  | push a => exact ⟨later, h.values.trans (List.suffix_cons a _), h.marks, h.above⟩
  | pop => exact ⟨later, h.pop admitted⟩
  | waypoint =>
    refine ⟨t.depth :: later, h.values, congrArg (t.depth :: ·) h.marks, ?_⟩
    exact List.forall_mem_cons.mpr ⟨h.depth_le, h.above⟩
  | rewind =>
    cases later with
    | nil => -- the latest waypoint is the one at the base
      have none := h.depth_marks
      rw [List.length_nil, Nat.zero_add] at none
      exact absurd admitted (Nat.not_lt_of_le (Nat.le_of_eq none))
    | cons mark later => exact ⟨later, h.rewind⟩

theorem Behind.run (h : Behind base later t) (admitted : AdmitsAll base t ops) :
    ∃ later', Behind base later' (t.afterAll ops) := by
  induction ops generalizing t later with
  | nil => exact ⟨later, h⟩
  | cons op ops ih =>
    obtain ⟨later', h'⟩ := h.step admitted.1
    exact ih h' admitted.2

theorem Behind.close (h : Behind base later t) : Behind base [] (t.afterAll (rewinds base t)) := by
  rw [rewinds, h.depth_marks, Nat.add_sub_cancel]
  -- one rewind for each later waypoint; a stale one is used up as well
  induction later generalizing t with
  | nil => exact h
  | cons mark later ih => exact ih h.rewind

/-- With no later waypoint left, the trail differs from the one at the waypoint in what was pushed
only. -/
theorem Behind.eq_extend (h : Behind base [] t) : ∃ above, t = base.waypoint.extend above := by
  obtain ⟨above, hv⟩ := h.values
  obtain ⟨⟨items⟩, ⟨marks⟩⟩ := t
  cases hv
  cases h.marks
  exact ⟨above.reverse, by simp [extend, waypoint, Stack.extend, Stack.push]⟩

/-- Whatever is done behind a waypoint that does not take values from below it or go back to it or
further: once the waypoints that are still pending behind it are used up, stale or not, it is the
latest one. Going back to it then succeeds and hands over just what lies above it, in the order of
pushing, and values and waypoints are those from before it was set. -/
theorem rewind_nested (admitted : AdmitsAll base base.waypoint ops) :
    let t := base.waypoint.afterAll ops
    let closed := t.afterAll (rewinds base t)
    ∃ above, closed.values.toList = base.values.toList ++ above ∧
      closed.marks = base.waypoint.marks ∧ closed.rewind = (.ok above, base) := by
  obtain ⟨later, behind⟩ := (behind_waypoint base).run admitted
  obtain ⟨above, same⟩ := behind.close.eq_extend
  dsimp only
  rw [same]
  exact ⟨above, Stack.toList_extend base.values above, rfl, rewind_extend_waypoint base above⟩

/-- Of the two waypoints behind the outer one, the first is stale when it is gone back to, and the
second is still pending. -/
theorem rewind_nested_stale :
    let base : Trail Nat := ⟨⟨[1]⟩, ⟨[0]⟩⟩
    let ops : List (Operation Nat) :=
      [.push 2, .push 3, .waypoint, .pop, .pop, .rewind, .push 4, .waypoint, .push 5]
    AdmitsAll base base.waypoint ops ∧
      ((base.waypoint.afterAll ops).after .rewind).rewind = (.ok [4], base) := by
  intro base ops
  have admitted : AdmitsAll base base.waypoint ops := by
    simp [AdmitsAll, Admits, ops, base, after, waypoint, push, pop?, depth, Stack.push, Stack.pop?,
      Stack.depth]
  refine ⟨admitted, ?_⟩
  obtain ⟨above, values, -, back⟩ := rewind_nested admitted
  cases values
  exact back

end StackCompiler.Trail
