import StackCompiler.Construction.Action

/-!
Actions that are refused. What was taken apart before an action turned out to fit nowhere is put
together again, so that a report is all that comes of it.
-/

namespace StackCompiler

namespace Trail

variable {α : Type} {t rest : Trail α} {taken : List α}

/-- The depth at which the new waypoint is set is that of the one that was used up. -/
theorem extend_of_rewind (h : t.rewind = (.ok taken, rest)) :
    (if !t.marks.isEmpty then rest.waypoint else rest).extend taken = t := by
  obtain ⟨values, ⟨marks⟩⟩ := t
  cases marks with
  | nil =>
    cases h
    rfl
  | cons mark marks =>
    simp only [rewind, Stack.pop?] at h
    split at h
    · next enough =>
      cases h
      have depth : (values.takeTop (values.depth - mark)).2.depth = mark := by
        rw [Stack.depth_takeTop]
        exact Nat.sub_sub_self enough
      have whole := Stack.extend_takeTop values (values.depth - mark)
      simp only [Stack.isEmpty, List.isEmpty_cons, Bool.not_false, if_true, extend, waypoint,
        Trail.depth, whole, depth]
      rfl
    · cases h

end Trail

def Action.startExit : ExitKind → Action
  | .switch => startSwitchExit
  | .loop => startLoopExit

namespace Construction

variable {s rest : Construction} {taken : List Node}

/-- Whatever a rewind took can be put back. -/
theorem restore_rewind (h : s.rewind = (.ok taken, rest)) :
    rest.restore (!s.nodes.marks.isEmpty) taken = s := by
  unfold rewind at h
  split at h
  · cases h
  · split at h
    · next nodes rewound =>
      cases h
      have whole := Trail.extend_of_rewind rewound
      unfold restore
      split
      · next waypoint =>
        rw [if_pos waypoint] at whole
        exact congrArg (fun nodes => { s with nodes }) whole
      · next none =>
        rw [if_neg none] at whole
        exact congrArg (fun nodes => { s with nodes }) whole
    · cases h

/-- A misfit leaves the construction as it was before the rewind. -/
theorem endExpression_eq (s : Construction) : s.endExpression =
    match s.rewind with
    | (.error cause, s) => (.error cause, s)
    | (.ok parts, rest) =>
      match parts.find? (·.tokens?.isNone), rest.items with
      | some misfit, _ => (.ok (), s.report (.notAnExpressionPart misfit.kind))
      | none, .expression e :: below =>
        let finished := e.append (parts.flatMap fun part => part.tokens?.getD [])
        (.ok (), rest.withItems (closeExpression finished below))
      | none, items => (.ok (),
          s.report (.unexpectedTop "end-expression" .expression (items.head?.map Node.kind))) := by
  rcases rewound : s.rewind with ⟨cause | parts, rest⟩
  · simp only [endExpression, rewound]
  · have whole := restore_rewind rewound
    simp only [endExpression, rewound]
    generalize rest.restore _ parts = back at whole ⊢
    subst whole
    rfl

/-- A child that is rejected is on top again, so that taking it off does not show. -/
theorem attach_eq (s : Construction) : s.attach =
    match s.items with
    | [] => s.report (.nothingOpen "attach")
    | [child] => s.report (.cannotAttach none child.kind)
    | child :: parent :: below =>
      match parent.place child with
      | some node => s.withItems (node :: below)
      | none => s.report (.cannotAttach (some parent.kind) child.kind) := by
  obtain ⟨k, ⟨⟨items⟩, marks⟩, diagnostics, aborted⟩ := s
  match items with
  | [] => rfl
  | [child] => rfl
  | child :: parent :: below => rfl

theorem perform_startExit (exit : ExitKind) :
    s.perform (.startExit exit) = (.nothing, s.openExit exit) := by
  cases exit <;> rfl

/-! ### An action reports at most once, and instead of anything else -/

/-- Either nothing is reported, or nothing but the report changes. -/
def OnlyReports (s t : Construction) : Prop :=
  t.diagnostics = s.diagnostics ∨ ∃ d, t = s.report d

theorem OnlyReports.silent {t : Construction} (h : t.diagnostics = s.diagnostics) :
    s.OnlyReports t := .inl h

theorem OnlyReports.of_report (d : Diagnostic) : s.OnlyReports (s.report d) := .inr ⟨d, rfl⟩

theorem OnlyReports.grows {t : Construction} (h : s.OnlyReports t) :
    s.diagnostics <+: t.diagnostics := by
  rcases h with same | ⟨d, rfl⟩
  · exact same ▸ List.prefix_rfl
  · exact List.prefix_append _ _

theorem onlyReports_setName (name : String) : s.OnlyReports (s.setName name) := by
  unfold setName
  split
  · exact .of_report _
  · next top below _ =>
    split
    · exact .silent rfl
    · exact .of_report _

theorem onlyReports_addParameter (name : String) : s.OnlyReports (s.addParameter name) := by
  unfold addParameter
  split
  · exact .silent rfl
  · exact .of_report _

theorem onlyReports_appendLiteral (text : String) : s.OnlyReports (s.appendLiteral text) := by
  unfold appendLiteral
  split
  · exact .silent rfl
  · exact .of_report _

theorem onlyReports_appendOperator (symbol : String) (unary : Bool) :
    s.OnlyReports (s.appendOperator symbol unary) := by
  unfold appendOperator
  split
  · exact .silent rfl
  · exact .of_report _

/-- Without an expression to go to, the operand stays on top. -/
theorem onlyReports_appendTop (action : String) (expected : NodeKind) :
    s.OnlyReports (s.appendTop action expected) := by
  unfold appendTop
  split
  · exact .of_report _
  · split
    · split
      · exact .silent rfl
      · exact .of_report _
    · exact .of_report _

theorem onlyReports_identifierToCall : s.OnlyReports s.identifierToCall := by
  unfold identifierToCall
  split
  · exact .silent rfl
  · exact .of_report _

theorem onlyReports_popExpression : s.OnlyReports s.popExpression.2 := by
  unfold popExpression
  split
  · exact .silent rfl
  · exact .of_report _

theorem onlyReports_beginCase (value : Expression) : s.OnlyReports (s.beginCase value) := by
  unfold beginCase
  split
  · exact .silent rfl
  · split
    · exact .silent rfl
    · exact .of_report _

theorem onlyReports_announceDefault : s.OnlyReports s.announceDefault := by
  unfold announceDefault
  split
  · exact .of_report _
  · split
    · exact .silent rfl
    · exact .of_report _

theorem onlyReports_endCase : s.OnlyReports s.endCase := by
  unfold endCase
  split
  · exact .of_report _
  · next w b below _ _ =>
    split
    · split
      · exact .silent rfl
      · exact .of_report _
    · split
      · exact .silent rfl
      · exact .of_report _
  · exact .of_report _

theorem onlyReports_attach : s.OnlyReports s.attach := by
  rw [attach_eq]
  split
  · exact .of_report _
  · exact .of_report _
  · split
    · exact .silent rfl
    · exact .of_report _

/-- Going back to a waypoint fails or succeeds without a report. -/
theorem diagnostics_rewind : s.rewind.2.diagnostics = s.diagnostics := by
  unfold rewind
  split
  · rfl
  · split <;> rfl

/-- The nodes that were taken and the waypoint are there again when one of them is a misfit. -/
theorem onlyReports_endExpression : s.OnlyReports s.endExpression.2 := by
  have unreported := @diagnostics_rewind s
  rw [endExpression_eq]
  split
  · next cause t failed =>
    rw [failed] at unreported
    exact .silent unreported
  · next parts rest rewound =>
    rw [rewound] at unreported
    split
    · exact .of_report _
    · exact .silent unreported
    · exact .of_report _

/-- Exits are opened even when there is nothing to leave. -/
theorem onlyReports_perform {a : Action} (ha : a ≠ .startSwitchExit) (hb : a ≠ .startLoopExit) :
    s.OnlyReports (s.perform a).2 := by
  cases a with
  | startSwitchExit => exact absurd rfl ha
  | startLoopExit => exact absurd rfl hb
  | start node => exact .silent rfl
  | name text => exact onlyReports_setName text
  | parameter name => exact onlyReports_addParameter name
  | literal text => exact onlyReports_appendLiteral text
  | operator symbol unary => exact onlyReports_appendOperator symbol unary
  | identifierToken | callToken => exact onlyReports_appendTop _ _
  | identifierToCall => exact onlyReports_identifierToCall
  | endExpression =>
    have ended := @onlyReports_endExpression s
    simp only [perform]
    split <;> (next h => rw [h] at ended; exact ended)
  | popExpression =>
    have popped := @onlyReports_popExpression s
    simp only [perform]
    split <;> (next h => rw [h] at popped; exact popped)
  | beginCase value => exact onlyReports_beginCase value
  | announceDefault => exact onlyReports_announceDefault
  | endCase => exact onlyReports_endCase
  | attach => exact onlyReports_attach
  | waypoint => exact .silent rfl
  | rewind =>
    have unreported := @diagnostics_rewind s
    simp only [perform]
    split <;> (next h => rw [h] at unreported; exact .silent unreported)
  | reattach nodes => exact .silent rfl

/-- An action that is complained about does nothing else: open nodes, waypoints, the next number
and the ability to go on are what they were. -/
theorem perform_of_reported {a : Action} (ha : a ≠ .startSwitchExit) (hb : a ≠ .startLoopExit)
    (reported : (s.perform a).2.diagnostics ≠ s.diagnostics) :
    ∃ d, (s.perform a).2.diagnostics = s.diagnostics ++ [d] ∧
      (s.perform a).2.nodes.values = s.nodes.values ∧ (s.perform a).2.nodes.marks = s.nodes.marks ∧
      (s.perform a).2.nextId = s.nextId ∧ (s.perform a).2.aborted = s.aborted := by
  rcases onlyReports_perform ha hb with same | ⟨d, refused⟩
  · exact absurd same reported
  · refine ⟨d, ?_⟩
    rw [refused]
    exact ⟨rfl, rfl, rfl, rfl, rfl⟩

/-- A block is taken off together with its waypoint before it is found not to be an operand. -/
theorem perform_of_reported_misfit :
    let s : Construction :=
      { nextId := 2, nodes := ⟨⟨[.block (.empty 1), .expression (.empty 0)]⟩, ⟨[1]⟩⟩ }
    Action.endExpression ≠ .startSwitchExit ∧ Action.endExpression ≠ .startLoopExit ∧
      (s.perform .endExpression).2.diagnostics ≠ s.diagnostics ∧
      ∃ d, (s.perform .endExpression).2.diagnostics = s.diagnostics ++ [d] ∧
        (s.perform .endExpression).2.nodes.values = s.nodes.values ∧
        (s.perform .endExpression).2.nodes.marks = s.nodes.marks ∧
        (s.perform .endExpression).2.nextId = s.nextId ∧
        (s.perform .endExpression).2.aborted = s.aborted := by
  intro s
  have notSwitch : Action.endExpression ≠ .startSwitchExit := nofun
  have notLoop : Action.endExpression ≠ .startLoopExit := nofun
  have reported : (s.perform .endExpression).2.diagnostics ≠ s.diagnostics := nofun
  exact ⟨notSwitch, notLoop, reported, perform_of_reported notSwitch notLoop reported⟩

end Construction

end StackCompiler
