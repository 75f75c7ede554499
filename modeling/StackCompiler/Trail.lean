import StackCompiler.Stack

/-!
A trail is a stack of values that are being worked on, together with waypoints: depths at which an
attempt began that may be taken back. Going back to a waypoint hands over what was pushed since.
-/

namespace StackCompiler

structure Trail (α : Type) where
  values : Stack α := {}
  marks : Stack Nat := {}
deriving Repr, DecidableEq

namespace Trail

variable {α : Type}

def depth (t : Trail α) : Nat := t.values.depth

def current? (t : Trail α) : Option α := t.values.top?

def push (t : Trail α) (a : α) : Trail α := { t with values := t.values.push a }

def extend (t : Trail α) (as : List α) : Trail α := { t with values := t.values.extend as }

def pop? (t : Trail α) : Option (α × Trail α) :=
  t.values.pop?.map fun (a, values) => (a, { t with values })

/-- A later rewind goes back to the depth of now. -/
def waypoint (t : Trail α) : Trail α := { t with marks := t.marks.push t.depth }

/-- The latest waypoint is used up. Values above it are handed over in the order of their pushing;
if values below it are gone, nothing is popped. Without a waypoint nothing happens. -/
def rewind (t : Trail α) : Except Underflow (List α) × Trail α :=
  match t.marks.pop? with
  | none => (.ok [], t)
  | some (mark, marks) =>
    if mark ≤ t.depth then
      let (taken, values) := t.values.takeTop (t.depth - mark)
      (.ok taken, ⟨values, marks⟩)
    else (.error ⟨mark, t.depth⟩, { t with marks })

def modifyTop (t : Trail α) (f : α → α) : Trail α := { t with values := t.values.modifyTop f }

def nearest? (t : Trail α) (p : α → Bool) : Option α := t.values.nearest? p

def updateNearest (t : Trail α) (f : α → Option α) : Option (Trail α) :=
  (t.values.updateNearest f).map fun values => { t with values }

theorem rewind_of_marks_eq_nil {t : Trail α} (h : t.marks.items = []) : t.rewind = (.ok [], t) := by
  simp [rewind, Stack.pop?, h]

theorem rewind_of_le {t : Trail α} {mark : Nat} {marks : List Nat}
    (h : t.marks.items = mark :: marks) (enough : mark ≤ t.depth) :
    t.rewind = (.ok (t.values.takeTop (t.depth - mark)).1,
      ⟨(t.values.takeTop (t.depth - mark)).2, ⟨marks⟩⟩) := by
  simp only [rewind, Stack.pop?, h]
  exact if_pos enough

theorem rewind_of_lt {t : Trail α} {mark : Nat} {marks : List Nat}
    (h : t.marks.items = mark :: marks) (gone : t.depth < mark) :
    t.rewind = (.error ⟨mark, t.depth⟩, { t with marks := ⟨marks⟩ }) := by
  simp only [rewind, Stack.pop?, h]
  exact if_neg (Nat.not_le_of_lt gone)

/-- A waypoint whose values are all still there gives back just what was pushed since. -/
theorem rewind_extend_waypoint (t : Trail α) (as : List α) :
    (t.waypoint.extend as).rewind = (.ok as, t) := by
  have h : (t.waypoint.extend as).depth = as.length + t.depth := by
    simp [waypoint, extend, depth, Stack.extend, Stack.depth]
  simp only [rewind, h]
  simp [waypoint, extend, Stack.pop?, Stack.push, Stack.takeTop_extend]

end Trail

end StackCompiler
