import StackCompiler.Proofs.Script.Actions

/-!
Several rewinds in a row and a reattach after them. Each rewind forgets what the one before it took,
so that only what the last one took comes back.
-/

namespace StackCompiler

namespace Construction

variable (s : Construction)

/-- The depth of now and below it the depths of the pending waypoints, the latest first. -/
def levels : List Nat := s.depth :: s.nodes.marks.items

/-- Only so many of the open nodes are left, and so many of the waypoints are used up. -/
def cutBack (depth waypoints : Nat) : Construction :=
  { s with nodes :=
      ⟨(s.nodes.values.takeTop (s.depth - depth)).2, ⟨s.nodes.marks.items.drop waypoints⟩⟩ }

variable {s} {depth depth' m n : Nat}

theorem depth_cutBack (h : depth ≤ s.depth) : (s.cutBack depth n).depth = depth :=
  (Stack.depth_takeTop s.nodes.values (s.depth - depth)).trans (Nat.sub_sub_self h)

theorem cutBack_cutBack (h' : depth' ≤ depth) (h : depth ≤ s.depth) :
    (s.cutBack depth m).cutBack depth' n = s.cutBack depth' (m + n) := by
  have sum : s.depth - depth + (depth - depth') = s.depth - depth' := by omega
  rw [cutBack, depth_cutBack h]
  simp [cutBack, Stack.takeTop, sum]

/-- All that was taken is put back. -/
theorem reattach_cutBack : (s.cutBack depth n).reattach
    (s.nodes.values.takeTop (s.depth - depth)).1 = s.cutBack s.depth n := by
  have whole := Stack.extend_takeTop s.nodes.values (s.depth - depth)
  simp only [reattach, Trail.extend, cutBack, whole, Nat.sub_self]
  rfl

/-- Nothing is lost only if nothing is cut off. -/
theorem values_cutBack (h : depth ≤ s.depth) :
    (s.cutBack depth n).nodes.values = s.nodes.values ↔ depth = s.depth := by
  constructor
  · intro same
    have left := depth_cutBack (n := n) h
    rw [Construction.depth, Trail.depth, same] at left
    exact left.symm
  · rintro rfl
    simp [cutBack, Stack.takeTop]

end Construction

namespace Script

variable {st : State} {mark : Nat} {marks : List Nat}

/-- A rewind takes what is above the latest waypoint. -/
theorem step_hold (alive : st.construction.aborted = false)
    (hm : st.construction.nodes.marks.items = mark :: marks)
    (enough : mark ≤ st.construction.depth) :
    st.step .hold = .ok {
      construction := st.construction.cutBack mark 1
      held := (st.construction.nodes.values.takeTop (st.construction.depth - mark)).1 } := by
  simp only [State.step, Construction.rewind_of_alive alive, Trail.rewind_of_le hm enough,
    Construction.cutBack, hm]
  rfl

theorem line_rewind {l : Line} {st' : State} (hl : l.action = "rewind")
    (h : st.step .hold = .ok st') : st.line l = .ok st' := by
  rw [State.line, directive_rewind hl]
  exact congrArg (Except.mapError _) h

/-- What was taken comes back on top. -/
theorem line_reattach {l : Line} (hl : l.action = "reattach") :
    st.line l = .ok { construction := st.construction.reattach st.held, held := [] } := by
  rw [State.line, directive_reattach hl]
  rfl

theorem run_cons {l : Line} {ls : List Line} {st' : State} (h : st.line l = .ok st') :
    (l :: ls).foldlM State.line st = ls.foldlM State.line st' := by
  rw [List.foldlM_cons, h]
  rfl

/-- Each rewind but the last one cuts back for good. -/
theorem run_rewinds {rewinds : List Line} {back : Line}
    (alive : st.construction.aborted = false)
    (nested : st.construction.levels.Pairwise (· ≥ ·)) (any : rewinds ≠ [])
    (pending : rewinds.length ≤ st.construction.nodes.marks.items.length)
    (hr : ∀ l ∈ rewinds, l.action = "rewind") (hb : back.action = "reattach") :
    ∃ kept ≤ st.construction.depth, st.construction.levels[rewinds.length - 1]? = some kept ∧
      (rewinds ++ [back]).foldlM State.line st =
        .ok { construction := st.construction.cutBack kept rewinds.length, held := [] } := by
  induction rewinds generalizing st with
  | nil => exact absurd rfl any
  | cons l rewinds ih =>
    rw [List.forall_mem_cons] at hr
    obtain ⟨mark, marks, hm⟩ :=
      List.exists_cons_of_length_pos (Nat.lt_of_lt_of_le (Nat.succ_pos _) pending)
    rw [Construction.levels, hm, List.pairwise_cons] at nested
    have enough : mark ≤ st.construction.depth := nested.1 mark List.mem_cons_self
    rw [List.cons_append, run_cons (line_rewind hr.1 (step_hold alive hm enough))]
    cases rewinds with
    | nil =>
      refine ⟨st.construction.depth, Nat.le_refl _, rfl, ?_⟩
      rw [List.nil_append, run_cons (line_reattach hb), Construction.reattach_cutBack]
      rfl
    | cons l' rewinds =>
      have marks' : (st.construction.cutBack mark 1).nodes.marks.items = marks := by
        rw [Construction.cutBack, hm]
        rfl
      have depth' := Construction.depth_cutBack (n := 1) enough
      have levels : (st.construction.cutBack mark 1).levels = mark :: marks := by
        rw [Construction.levels, depth', marks']
      obtain ⟨kept, below, hk, run⟩ := @ih ⟨st.construction.cutBack mark 1, _⟩ alive
        (levels ▸ nested.2) (List.cons_ne_nil l' rewinds) (by simpa [marks', hm] using pending) hr.2
      dsimp only at below hk run
      rw [depth'] at below
      rw [levels] at hk
      refine ⟨kept, Nat.le_trans below enough, ?_, ?_⟩
      · simpa [Construction.levels, hm] using hk
      · rw [run, Construction.cutBack_cutBack below enough, Nat.add_comm]
        rfl

/-- Rewinds in a row with a reattach behind them never fail where their waypoints are nested. But
each rewind gives up what the one before it took: what was open above the waypoint that the last but
one of them used up is gone, and the rest is open as before. So they undo one another exactly if
nothing was open above that waypoint, as when there is only one of them. -/
theorem reattach_after_rewinds {before rewinds : List Line} {back : Line}
    (reached : before.foldlM State.line {} = .ok st)
    (nested : st.construction.levels.Pairwise (· ≥ ·)) (any : rewinds ≠ [])
    (pending : rewinds.length ≤ st.construction.nodes.marks.items.length)
    (hr : ∀ l ∈ rewinds, l.action = "rewind") (hb : back.action = "reattach") :
    ∃ kept, st.construction.levels[rewinds.length - 1]? = some kept ∧
      (rewinds ++ [back]).foldlM State.line st =
        .ok { construction := st.construction.cutBack kept rewinds.length, held := [] } ∧
      ((st.construction.cutBack kept rewinds.length).nodes.values = st.construction.nodes.values ↔
        kept = st.construction.depth) := by
  have alive : st.construction.aborted = false := (leads_lines reached).alive rfl
  obtain ⟨kept, below, level, run⟩ := run_rewinds alive nested any pending hr hb
  exact ⟨kept, level, run, Construction.values_cutBack below⟩

/-- Two attempts, one inside of the other. -/
def attempts : List Line := [
  ⟨1, "begin-block", none⟩, ⟨2, "waypoint", none⟩, ⟨3, "begin-loop", none⟩, ⟨4, "waypoint", none⟩,
  ⟨5, "begin-expression", none⟩]

/-- The expression is gone after two rewinds. -/
theorem reattach_after_rewinds_twice : ∃ st, attempts.foldlM State.line {} = .ok st ∧
    st.construction.nodes.values.toList =
      [.block (.empty 0), .loop (.empty 1), .expression (.empty 2)] ∧
    ∃ st', [⟨6, "rewind", none⟩, ⟨7, "rewind", none⟩, ⟨8, "reattach", none⟩].foldlM State.line st =
        .ok st' ∧
      st'.construction.nodes.values.toList = [.block (.empty 0), .loop (.empty 1)] := by
  refine ⟨_, rfl, rfl, ?_⟩
  obtain ⟨kept, level, run, -⟩ := @reattach_after_rewinds _ attempts
    [⟨6, "rewind", none⟩, ⟨7, "rewind", none⟩] ⟨8, "reattach", none⟩ rfl
    (by decide) (List.cons_ne_nil _ _) (by decide) (by decide) rfl
  cases level
  exact ⟨_, run, rfl⟩

end Script

end StackCompiler
