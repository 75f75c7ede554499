import StackCompiler.Proofs.Construction.Refusal

/-!
Going back to a waypoint whose nodes are gone. This alone ends a construction; the open nodes stay
as they are, and an ended construction never goes back again, whatever is done to it.
-/

namespace StackCompiler

/-- Actions that go back to the latest waypoint. -/
def Action.goesBack : Action → Bool
  | .endExpression | .rewind => true
  | _ => false

namespace Construction

variable {s t : Construction} {a : Action} {mark : Nat}

/-- At the latest waypoint more nodes were open than there are now. -/
structure Stale (s : Construction) (mark : Nat) : Prop where
  alive : s.aborted = false
  latest : s.nodes.marks.items.head? = some mark
  gone : s.depth < mark

/-- The waypoint is used up, and nothing else changes. -/
def abort (s : Construction) : Construction :=
  { s with nodes := { s.nodes with marks := ⟨s.nodes.marks.items.tail⟩ }, aborted := true }

theorem rewind_of_aborted (h : s.aborted = true) : s.rewind = (.error .aborted, s) := if_pos h

theorem rewind_of_alive (h : s.aborted = false) : s.rewind =
    match s.nodes.rewind with
    | (.ok taken, nodes) => (.ok taken, { s with nodes })
    | (.error cause, nodes) => (.error (.underflow cause), { s with nodes, aborted := true }) :=
  if_neg (by simp [h])

theorem rewind_of_stale (h : s.Stale mark) :
    s.rewind = (.error (.underflow ⟨mark, s.depth⟩), s.abort) := by
  obtain ⟨marks, hm⟩ := List.head?_eq_some_iff.mp h.latest
  rw [rewind_of_alive h.alive, Trail.rewind_of_lt hm h.gone, abort, hm]
  rfl

theorem rewind_of_not_stale (alive : s.aborted = false) (h : ∀ mark, ¬ s.Stale mark) :
    ∃ taken t, s.rewind = (.ok taken, t) ∧ t.aborted = false := by
  rw [rewind_of_alive alive]
  cases hm : s.nodes.marks.items with
  | nil =>
    rw [Trail.rewind_of_marks_eq_nil hm]
    exact ⟨_, _, rfl, alive⟩
  | cons mark marks =>
    have enough : mark ≤ s.nodes.depth := Nat.le_of_not_lt fun gone =>
      h mark ⟨alive, by rw [hm, List.head?_cons], gone⟩
    rw [Trail.rewind_of_le hm enough]
    exact ⟨_, _, rfl, alive⟩

/-- An action that goes back fails as the rewind does, and leaves what the rewind leaves. -/
theorem perform_of_rewind_error {cause : BuildFailure} (ha : a.goesBack)
    (h : s.rewind = (.error cause, t)) : s.perform a = (.failure cause, t) := by
  cases a with
  | endExpression => simp only [perform, endExpression_eq, h]
  | rewind => simp only [perform, h]
  | _ => cases ha

theorem endExpression_of_rewind_ok {taken : List Node} (h : s.rewind = (.ok taken, t))
    (alive : t.aborted = s.aborted) :
    ∃ ended, s.endExpression = (.ok (), ended) ∧ ended.aborted = s.aborted := by
  simp only [endExpression_eq, h]
  split
  · exact ⟨_, rfl, rfl⟩
  · exact ⟨_, rfl, alive⟩
  · exact ⟨_, rfl, rfl⟩

theorem perform_of_rewind_ok {taken : List Node} (ha : a.goesBack)
    (h : s.rewind = (.ok taken, t)) (alive : t.aborted = s.aborted) :
    (∀ cause, (s.perform a).1 ≠ .failure cause) ∧ (s.perform a).2.aborted = s.aborted := by
  cases a with
  | endExpression =>
    obtain ⟨ended, he, same⟩ := endExpression_of_rewind_ok h alive
    simp only [perform, he]
    exact ⟨by simp, same⟩
  | rewind =>
    simp only [perform, h]
    exact ⟨by simp, alive⟩
  | _ => cases ha

/-- No other action can fail, and whichever of its branches an action takes, it reports or puts
other nodes in place of the open ones. -/
theorem perform_of_not_goesBack (ha : a.goesBack = false) :
    (∀ cause, (s.perform a).1 ≠ .failure cause) ∧ (s.perform a).2.aborted = s.aborted := by
  cases a with
  | endExpression | rewind => cases ha
  | start | waypoint | reattach => exact ⟨by simp [perform], rfl⟩
  | popExpression =>
    have same : s.popExpression.2.aborted = s.aborted := by
      unfold popExpression
      split <;> rfl
    simp only [perform]
    split <;> (next h => rw [h] at same; exact ⟨by simp, same⟩)
  | startSwitchExit | startLoopExit | name | parameter | literal | operator | identifierToken
  | callToken | identifierToCall | beginCase | announceDefault | endCase | attach =>
    refine ⟨by simp [perform], ?_⟩
    simp only [perform, openExit, setName, addParameter, appendLiteral, appendOperator, appendTop,
      identifierToCall, beginCase, announceDefault, endCase, attach_eq]
    (repeat' split) <;> rfl

/-- What comes of going back. -/
theorem perform_of_goesBack (ha : a.goesBack) :
    s.aborted = true ∧ s.perform a = (.failure .aborted, s) ∨
    (∃ mark, s.Stale mark ∧ s.perform a = (.failure (.underflow ⟨mark, s.depth⟩), s.abort)) ∨
    (∀ mark, ¬ s.Stale mark) ∧ (∀ cause, (s.perform a).1 ≠ .failure cause) ∧
      (s.perform a).2.aborted = false := by
  cases alive : s.aborted with
  | true => exact .inl ⟨rfl, perform_of_rewind_error ha (rewind_of_aborted alive)⟩
  | false =>
    right
    by_cases stale : ∃ mark, s.Stale mark
    · obtain ⟨mark, stale⟩ := stale
      exact .inl ⟨mark, stale, perform_of_rewind_error ha (rewind_of_stale stale)⟩
    · have none := not_exists.mp stale
      obtain ⟨taken, t, rewound, same⟩ := rewind_of_not_stale alive none
      obtain ⟨succeeds, kept⟩ := perform_of_rewind_ok ha rewound (same.trans alive.symm)
      exact .inr ⟨none, succeeds, kept.trans alive⟩

theorem perform_underflow {depth : Nat} : (s.perform a).1 = .failure (.underflow ⟨mark, depth⟩) ↔
    a.goesBack ∧ s.Stale mark ∧ depth = s.depth := by
  cases ha : a.goesBack with
  | false => simpa using (perform_of_not_goesBack ha).1 _
  | true =>
    obtain ⟨ended, h⟩ | ⟨other, stale, h⟩ | ⟨none, succeeds, -⟩ := perform_of_goesBack (s := s) ha
    · have never : ¬ s.Stale mark := fun stale => by simp [stale.alive] at ended
      simp [h, never]
    · rw [h]
      constructor
      · rintro ⟨⟩
        exact ⟨rfl, stale, rfl⟩
      · rintro ⟨-, same, rfl⟩
        rw [Option.some.inj (same.latest.symm.trans stale.latest)]
    · simpa [none mark] using succeeds _

/-- Nothing else ends a construction. -/
theorem aborted_perform (alive : s.aborted = false) :
    (s.perform a).2.aborted = true ↔ a.goesBack ∧ ∃ mark, s.Stale mark := by
  cases ha : a.goesBack with
  | false => simp [(perform_of_not_goesBack ha).2, alive]
  | true =>
    obtain ⟨ended, -⟩ | ⟨mark, stale, h⟩ | ⟨none, -, still⟩ := perform_of_goesBack (s := s) ha
    · rw [alive] at ended
      cases ended
    · rw [h]
      exact ⟨fun _ => ⟨rfl, mark, stale⟩, fun _ => rfl⟩
    · simp [none, still]

theorem aborted_perform_of_aborted (ended : s.aborted = true) : (s.perform a).2.aborted = true := by
  cases ha : a.goesBack with
  | false => exact (perform_of_not_goesBack ha).2.trans ended
  | true => rw [perform_of_rewind_error ha (rewind_of_aborted ended)]; exact ended

/-- The construction after the actions, whatever they answer. -/
def after (s : Construction) (actions : List Action) : Construction :=
  actions.foldl (fun s a => (s.perform a).2) s

theorem after_append (earlier later : List Action) :
    s.after (earlier ++ later) = (s.after earlier).after later := List.foldl_append

theorem aborted_after_of_aborted (ended : s.aborted = true) (actions : List Action) :
    (s.after actions).aborted = true := by
  induction actions generalizing s with
  | nil => exact ended
  | cons a actions ih => exact ih (aborted_perform_of_aborted ended)

/-- A construction has ended if and only if one of the actions went back to a stale waypoint. -/
theorem aborted_after (alive : s.aborted = false) (actions : List Action) :
    (s.after actions).aborted = true ↔ ∃ earlier a later mark,
      actions = earlier ++ a :: later ∧ a.goesBack ∧ (s.after earlier).Stale mark := by
  constructor
  · intro ended
    induction actions generalizing s with
    | nil => exact absurd (alive.symm.trans ended) Bool.false_ne_true
    | cons a actions ih =>
      cases next : (s.perform a).2.aborted with
      | true =>
        obtain ⟨back, mark, stale⟩ := (aborted_perform alive).mp next
        exact ⟨[], a, actions, mark, rfl, back, stale⟩
      | false =>
        obtain ⟨earlier, b, later, mark, rfl, back, stale⟩ := ih next ended
        exact ⟨a :: earlier, b, later, mark, rfl, back, stale⟩
  · rintro ⟨earlier, a, later, mark, rfl, back, stale⟩
    have ended : ((s.after earlier).perform a).2.aborted = true :=
      (aborted_perform stale.alive).mpr ⟨back, mark, stale⟩
    rw [after_append]
    exact aborted_after_of_aborted ended later

theorem finish_of_aborted (ended : s.aborted = true) : s.finish = .error .aborted := if_pos ended

/-- An action that goes back tells of an underflow exactly if the construction has not ended, a
waypoint is pending and less is open than there was at the latest one. Then the open nodes, the
reports and the next number stay what they were, and the construction has ended. Nothing else ends
it, and whatever is done to it later, going back is refused without any change, and nothing can be
finished. -/
theorem underflow_ends (actions : List Action) :
    let s := ({} : Construction).after actions
    (∀ a mark depth, (s.perform a).1 = .failure (.underflow ⟨mark, depth⟩) ↔
      a.goesBack ∧ s.Stale mark ∧ depth = s.depth) ∧
    (∀ a mark, a.goesBack → s.Stale mark →
      (s.perform a).2.nodes.values = s.nodes.values ∧
      (s.perform a).2.diagnostics = s.diagnostics ∧
      (s.perform a).2.nextId = s.nextId ∧ (s.perform a).2.aborted = true) ∧
    (s.aborted = true ↔ ∃ earlier a later mark, actions = earlier ++ a :: later ∧ a.goesBack ∧
      (({} : Construction).after earlier).Stale mark) ∧
    (s.aborted = true → ∀ later,
      (s.after later).finish = .error .aborted ∧
      ∀ a, a.goesBack → (s.after later).perform a = (.failure .aborted, s.after later)) := by
  intro s
  refine ⟨fun a mark depth => perform_underflow, fun a mark back stale => ?_,
    aborted_after rfl actions, fun ended later => ?_⟩
  · rw [perform_of_rewind_error back (rewind_of_stale stale)]
    exact ⟨rfl, rfl, rfl, rfl⟩
  · have still := aborted_after_of_aborted ended later
    exact ⟨finish_of_aborted still, fun a back =>
      perform_of_rewind_error back (rewind_of_aborted still)⟩

/-- The identifier that was open at the waypoint has become a token, so the expression cannot be
ended. -/
theorem underflow_ends_token :
    let actions : List Action :=
      [.start .expression, .start .identifier, .waypoint, .identifierToken]
    let s := ({} : Construction).after actions
    let ended := ({} : Construction).after (actions ++ [.endExpression])
    (s.perform .endExpression).1 = .failure (.underflow ⟨2, 1⟩) ∧
      (s.perform .endExpression).2.nodes.values = s.nodes.values ∧ ended.aborted = true ∧
      (ended.after [.start .block]).finish = .error .aborted ∧
      (ended.after [.start .block]).perform .rewind =
        (.failure .aborted, ended.after [.start .block]) := by
  intro actions s ended
  have stale : s.Stale 2 := ⟨rfl, rfl, by decide⟩
  obtain ⟨told, kept, -⟩ := underflow_ends actions
  obtain ⟨-, -, ends, final⟩ := underflow_ends (actions ++ [.endExpression])
  have failed : ended.aborted = true := ends.mpr ⟨actions, .endExpression, [], 2, rfl, rfl, stale⟩
  obtain ⟨finish, refused⟩ := final failed [.start .block]
  exact ⟨(told _ 2 1).mpr ⟨rfl, stale, rfl⟩, (kept _ 2 rfl stale).1, failed, finish, refused _ rfl⟩

end Construction

end StackCompiler
