import StackCompiler.Proofs.Construction.Inventory
import StackCompiler.Proofs.Script.Built

/-!
Every statement that a script opens is in its program, exactly once, if the script takes back what
it holds before it holds anything else.
-/

namespace StackCompiler

/-- A value opens a case, unless it is one more value of the case on top. -/
def Construction.opensCase (s : Construction) : Bool :=
  s.current?.all (·.kind != .switchCase) && s.items.any (·.kind == .switch)

/-- Kind and number of the node that the action opens, unless that is a value. -/
def Construction.opens? (s : Construction) : Action → Option (NodeKind × Nat)
  | .start o =>
    let node := o.node s.nextId
    if node.isOperand then none else some (node.kind, node.id)
  | .startSwitchExit => some (.switchExit, s.nextId)
  | .startLoopExit => some (.loopExit, s.nextId)
  | .beginCase _ => if s.opensCase then some (.switchCase, s.nextId) else none
  | _ => none

variable {s : Construction} {loose : List Node} {kind : NodeKind} {id : Nat}

theorem Node.own_mem_holdings {n : Node} (h : n.isOperand = false) :
    .node n.kind n.id ∈ n.holdings := by
  rw [holdings_eq, List.mem_append]
  left
  cases n <;> first | exact List.mem_singleton_self _ | cases h

theorem Construction.stock_beginCase {v : Expression} (h : s.opensCase = true) :
    (s.beginCase v).stock loose =
      ⟨.switchCase (.first s.nextId v) :: s.items, loose, s.nextId + 1⟩ := by
  rw [opensCase, Bool.and_eq_true] at h
  obtain ⟨top, around⟩ := h
  unfold beginCase
  split
  · next c below hs =>
    rw [current?, hs] at top
    cases top
  · rw [if_pos around]
    rfl

theorem Node.eq_of_mem_ownHoldings {n : Node} (h : .node kind id ∈ n.ownHoldings) :
    (n.kind, n.id) = (kind, id) := by
  cases n with
  | expression e =>
    rw [ownHoldings, List.mem_filterMap] at h
    obtain ⟨token, -, ht⟩ := h
    unfold Token.holding? at ht
    split at ht <;> cases ht
  | identifier i | call c => cases h
  | _ =>
    cases List.mem_singleton.mp h
    rfl

/-- In a tree whose numbers are all different, what is there is there once. -/
theorem Node.countP_of_mem_holdings {root : Node} (nodup : root.ids.Nodup)
    (h : .node kind id ∈ root.holdings) :
    root.subtree.countP (fun n => (n.kind, n.id) = (kind, id)) = 1 := by
  obtain ⟨n, hn, own⟩ := List.mem_flatMap.mp h
  have some : 0 < root.subtree.countP (fun n => (n.kind, n.id) = (kind, id)) :=
    List.countP_pos_iff.mpr ⟨n, hn, by simpa using eq_of_mem_ownHoldings own⟩
  have few : root.subtree.countP (fun n => (n.kind, n.id) = (kind, id)) ≤
      root.subtree.countP (fun n => n.id == id) :=
    List.countP_mono_left fun m _ same => by simp_all
  have one := List.nodup_iff_count.mp (nodup_map_id nodup) id
  rw [List.count_eq_countP, List.countP_map] at one
  exact Nat.le_antisymm (Nat.le_trans few one) some

/-- What was opened is there. -/
theorem Construction.mem_holdings_perform (loose : List Node) {a : Action}
    (h : s.opens? a = some (kind, id)) :
    .node kind id ∈ ((s.perform a).2.stock loose).holdings := by
  rw [Stock.mem_holdings]
  left
  cases a with
  | start o =>
    simp only [opens?, Option.ite_none_left_eq_some, Option.some.injEq, Prod.mk.injEq] at h
    obtain ⟨value, rfl, rfl⟩ := h
    exact ⟨_, List.mem_cons_self, Node.own_mem_holdings (by simpa using value)⟩
  | startSwitchExit | startLoopExit =>
    cases h
    rw [perform, stock_openExit]
    exact ⟨_, List.mem_cons_self, Node.own_mem_holdings rfl⟩
  | beginCase v =>
    simp only [opens?, Option.ite_none_right_eq_some, Option.some.injEq, Prod.mk.injEq] at h
    obtain ⟨opens, rfl, rfl⟩ := h
    rw [perform, stock_beginCase opens]
    exact ⟨_, List.mem_cons_self, Node.own_mem_holdings rfl⟩
  | _ => cases h

namespace Script

variable {st st' : State} {d : Directive}

/-- Kind and number of the node that the directive opens, unless that is a value. -/
def State.opens? (st : State) : Directive → Option (NodeKind × Nat)
  | .perform action => st.construction.opens? action
  | .caseValue words =>
    match writeExpression st.construction words with
    | .ok written =>
      match written.popExpression with
      | (some value, rest) => rest.opens? (.beginCase value)
      | (none, _) => none
    | .error _ => none
  | _ => none

/-- All that the lines open, one after the other. -/
def opened : State → List Line → List (NodeKind × Nat)
  | _, [] => []
  | st, l :: ls =>
    match l.directive, st.line l with
    | .ok d, .ok next => (st.opens? d).toList ++ opened next ls
    | _, _ => []

/-- The next line that has to do with held nodes gives them back. -/
def givesBack (ls : List Line) : Bool :=
  (ls.find? fun l => l.action == "rewind" || l.action == "reattach").any (·.action == "reattach")

/-- Whenever a line takes nodes away, they are given back before any others are taken, and before
the script ends. -/
def returnsAll : State → List Line → Bool
  | _, [] => true
  | st, l :: ls =>
    match st.line l with
    | .ok next =>
      (l.action != "rewind" || next.held.isEmpty || givesBack ls) && returnsAll next ls
    | .error _ => true

/-- No case that is open or held has a body. -/
def State.Secure (st : State) : Prop :=
  ∀ c, .switchCase c ∈ st.construction.items ++ st.held → c.body = none

/-- Nodes that are no values stay. -/
def State.Retains (st st' : State) : Prop :=
  ∀ kind id, .node kind id ∈ st.stock.holdings → .node kind id ∈ st'.stock.holdings

/-- Only two directives look at the nodes that are held. -/
theorem step_of_held (nodes : List Node) (hold : d ≠ .hold) (release : d ≠ .release)
    (h : st.step d = .ok st') : st'.held = st.held ∧
      State.step { st with held := nodes } d = .ok { st' with held := nodes } := by
  cases d with
  | perform action =>
    cases hp : st.construction.perform action with
    | mk r c =>
      simp only [State.step, hp] at h ⊢
      cases r <;> cases h <;> exact ⟨rfl, rfl⟩
  | expression words =>
    cases hw : writeExpression st.construction words with
    | error cause =>
      simp only [State.step, hw] at h
      cases h
    | ok c =>
      simp only [State.step, hw] at h ⊢
      cases h
      exact ⟨rfl, rfl⟩
  | caseValue words =>
    cases hw : writeExpression st.construction words with
    | error cause =>
      simp only [State.step, hw] at h
      cases h
    | ok c =>
      simp only [State.step, hw, Bind.bind, Except.bind] at h ⊢
      cases hp : c.popExpression with
      | mk value rest =>
        simp only [hp] at h ⊢
        cases value <;> cases h <;> exact ⟨rfl, rfl⟩
  | hold => exact absurd rfl hold
  | release => exact absurd rfl release

/-- Any other line keeps what is open and what is held, and the node that it opens is there. -/
theorem step_retains {st st' : State} (hd : d.Within .values) (release : d ≠ .release)
    (h : st.step d = .ok st') (secure : st.Secure) : st'.Secure ∧ st.Retains st' := by
  have hold : d ≠ .hold := by
    rintro rfl
    cases hd (.block (.empty 0))
  obtain ⟨same, alone⟩ := step_of_held [] hold release h
  have moves : Moves .values (st.construction.stock []) (st'.construction.stock []) :=
    moves_step hd alone
  have start : (st.construction.stock []).Secure :=
    ⟨fun c hc => secure c (List.mem_append_left _ hc), fun n hn => nomatch hn⟩
  obtain ⟨final, kept⟩ := moves.retains start
  constructor
  · intro c hc
    obtain hc | hc := List.mem_append.mp hc
    · exact final.open_cases c hc
    · exact secure c (List.mem_append_right _ (same ▸ hc))
  · intro kind id hx
    rw [Stock.mem_holdings] at hx ⊢
    obtain hx | hx := hx
    · have there := kept kind id (Stock.mem_holdings.mpr (.inl hx))
      rw [Stock.mem_holdings] at there
      exact there.imp_right fun ⟨n, hn, _⟩ => nomatch hn
    · have held : st'.stock.loose = st.stock.loose := same
      exact .inr (held ▸ hx)

theorem release_retains (h : st.step .release = .ok st') (secure : st.Secure) :
    st'.Secure ∧ st.Retains st' ∧ st'.held = [] := by
  cases h
  refine ⟨fun c hc => secure c ?_, fun kind id hx => ?_, rfl⟩
  · have back : .switchCase c ∈ st.held.reverse ++ st.construction.items ++ [] := hc
    simpa [or_comm] using back
  · rw [Stock.mem_holdings] at hx ⊢
    obtain ⟨n, hn, hx⟩ | ⟨n, hn, hx⟩ := hx
    · exact .inl ⟨n, List.mem_append_right _ hn, hx⟩
    · exact .inl ⟨n, List.mem_append_left _ (List.mem_reverse.mpr hn), hx⟩

/-- Nothing is forgotten if nothing was held. -/
theorem hold_retains (h : st.step .hold = .ok st') (secure : st.Secure) (free : st.held = []) :
    st'.Secure ∧ st.Retains st' := by
  simp only [State.step] at h
  split at h
  · next taken c hs =>
    cases h
    obtain ⟨items, -⟩ := Construction.rewind_ok hs
    have all (n : Node) : n ∈ c.items ∨ n ∈ taken ↔ n ∈ st.construction.items := by
      rw [items, List.mem_append, List.mem_reverse, or_comm]
    refine ⟨fun k hk => secure k ?_, fun kind id hx => ?_⟩
    · exact List.mem_append_left _ ((all _).mp (List.mem_append.mp hk))
    · rw [Stock.mem_holdings] at hx ⊢
      obtain ⟨n, hn, hx⟩ | ⟨n, hn, hx⟩ := hx
      · exact ((all n).mpr hn).imp (fun hn => ⟨n, hn, hx⟩) fun hn => ⟨n, hn, hx⟩
      · have none : n ∈ st.held := hn
        rw [free] at none
        cases none
  · cases h

/-- The node that a directive opens is there afterwards. -/
theorem mem_holdings_step {kind : NodeKind} {id : Nat} (h : st.step d = .ok st')
    (opens : st.opens? d = some (kind, id)) : .node kind id ∈ st'.stock.holdings := by
  cases d with
  | perform action =>
    have there := Construction.mem_holdings_perform st.held opens
    simp only [State.step] at h
    split at h
    · cases h
    · next hc =>
      cases h
      rw [hc] at there
      exact there
  | caseValue words =>
    simp only [State.opens?] at opens
    split at opens
    · next written hw =>
      split at opens
      · next value rest hp =>
        simp only [State.step, hw, Bind.bind, Except.bind, hp] at h
        cases h
        exact Construction.mem_holdings_perform st.held opens
      · cases opens
    · cases opens
  | _ => cases opens

theorem action_of_directive_release {l : Line} (h : l.directive = .ok .release) :
    l.action = "reattach" := by
  unfold Line.directive at h
  dsimp only at h
  split at h
  case h_27 action => exact action
  all_goals first
    | cases h
    | (split at h <;> cases h)

/-- At each line either nothing is held or what is held is about to be given back. -/
def Settles (st : State) (ls : List Line) : Prop := st.held = [] ∨ givesBack ls = true

theorem givesBack_cons_of_rewind {l : Line} {ls : List Line} (h : l.action = "rewind") :
    givesBack (l :: ls) = false := by
  simp [givesBack, h]

theorem givesBack_cons_of_ne {l : Line} {ls : List Line} (hr : l.action ≠ "rewind")
    (hb : l.action ≠ "reattach") : givesBack (l :: ls) = givesBack ls := by
  simp [givesBack, hr, hb]

theorem line_retains {l : Line} {ls : List Line} (hd : l.directive = .ok d)
    (h : st.step d = .ok st') (secure : st.Secure) (settles : Settles st (l :: ls))
    (back : l.action = "rewind" → st'.held = [] ∨ givesBack ls = true) :
    st'.Secure ∧ st.Retains st' ∧ Settles st' ls := by
  by_cases rewind : l.action = "rewind"
  · rw [directive_rewind rewind] at hd
    cases hd
    have free : st.held = [] := settles.resolve_right (by simp [givesBack_cons_of_rewind rewind])
    obtain ⟨secure', kept⟩ := hold_retains h secure free
    exact ⟨secure', kept, back rewind⟩
  by_cases reattach : l.action = "reattach"
  · rw [directive_reattach reattach] at hd
    cases hd
    obtain ⟨secure', kept, free⟩ := release_retains h secure
    exact ⟨secure', kept, .inl free⟩
  have hold : d ≠ .hold := fun hold => rewind (action_of_directive_hold (hold ▸ hd))
  have release : d ≠ .release := fun release =>
    reattach (action_of_directive_release (release ▸ hd))
  have within : d.Within .values :=
    within_of_texts hd (fun _ => trivial) (fun held => absurd held hold) trivial
  obtain ⟨secure', kept⟩ := step_retains within release h secure
  have same := (step_of_held [] hold release h).1
  rw [Settles, givesBack_cons_of_ne rewind reattach, ← same] at settles
  exact ⟨secure', kept, settles⟩

theorem lines_retain {ls : List Line} (run : ls.foldlM State.line st = .ok st')
    (secure : st.Secure) (settles : Settles st ls) (back : returnsAll st ls = true) :
    st'.held = [] ∧ st.Retains st' ∧
      ∀ o ∈ opened st ls, .node o.1 o.2 ∈ st'.stock.holdings := by
  induction ls generalizing st with
  | nil =>
    cases run
    exact ⟨settles.resolve_right Bool.false_ne_true, fun _ _ hx => hx, fun _ ho => nomatch ho⟩
  | cons l ls ih =>
    rw [List.foldlM_cons] at run
    cases hn : st.line l with
    | error cause =>
      rw [hn] at run
      cases run
    | ok next =>
      rw [hn] at run
      obtain ⟨d, hd, hs⟩ := line_eq_ok hn
      simp only [returnsAll, hn, Bool.and_eq_true, Bool.or_eq_true, bne_iff_ne, ne_eq,
        List.isEmpty_iff] at back
      obtain ⟨here, later⟩ := back
      obtain ⟨secure', kept, settles'⟩ := line_retains hd hs secure settles fun rewind =>
        here.imp_left fun h => h.resolve_left fun other => other rewind
      obtain ⟨free, kept', found⟩ := ih run secure' settles' later
      refine ⟨free, fun kind id hx => kept' kind id (kept kind id hx), fun o ho => ?_⟩
      simp only [opened, hd, hn, List.mem_append, Option.mem_toList] at ho
      obtain ho | ho := ho
      · exact kept' _ _ (mem_holdings_step hs ho)
      · exact found o ho

/-- Every function, statement and case that a line opens is in the program, in one place, whatever
actions were misused, provided that each rewind that takes nodes is made good by a reattach before
the next rewind and before the end. -/
theorem opened_once {source : String} {built : Built} (h : replay source = .ok built)
    (back : returnsAll {} (lines source) = true) :
    ∀ o ∈ opened {} (lines source),
      (Node.program built.program).subtree.countP (fun n => (n.kind, n.id) = o) = 1 := by
  intro o ho
  obtain ⟨st, replays⟩ := replay_eq_ok h
  obtain ⟨free, -, found⟩ := lines_retain replays.1 (fun c hc => nomatch hc) (.inl rfl) back
  have there := found o ho
  rw [replays.stock, free, Stock.mem_holdings] at there
  obtain ⟨n, hn, hx⟩ | ⟨n, hn, -⟩ := there
  · rw [List.mem_singleton.mp hn] at hx
    exact Node.countP_of_mem_holdings (replay_ids_nodup h) hx
  · cases hn

/-- An exit is put before a switch and its case, which are taken away for it. The waypoint is in the
way of the expressions, and two more actions fit nowhere. -/
def heldSource : String :=
  "begin-program\n" ++ "begin-function\n" ++ "name main\n" ++ "begin-block\n" ++ "end-case\n" ++
  "waypoint\n" ++ "begin-switch\n" ++ "expr 1\n" ++ "attach\n" ++ "case 2\n" ++ "rewind\n" ++
  "begin-break\n" ++ "attach\n" ++ "reattach\n" ++ "begin-switch-block\n" ++
  "begin-return\n" ++ "expr 3\n" ++ "attach\n" ++ "attach\n" ++ "end-case\n" ++ "attach\n" ++
  "attach\n" ++ "attach\n"

def heldProgram : Program where
  id := 0
  functions := [
    { id := 1
      name := "main"
      body := some ⟨2, [
        .switchExit ⟨9, none⟩,
        .switch ⟨3, some ⟨4, [.leaf (.constant ⟨5, "1"⟩)]⟩,
          [⟨8, [⟨6, [.leaf (.constant ⟨7, "2"⟩)]⟩],
            some ⟨10, [.ret ⟨11, some ⟨12, [.leaf (.constant ⟨13, "3"⟩)]⟩⟩]⟩⟩], none, false⟩]⟩ }]

def heldDiagnostics : List Diagnostic := [
  .missingContext "end-switch-case" .switch "case body",
  .notAnExpressionPart .switch,
  .notAnExpressionPart .switch,
  .missingContext "begin-break" .switch "break"]

set_option maxRecDepth 10000 in
theorem replay_held : replay heldSource = .ok ⟨heldProgram, heldDiagnostics⟩ := by
  unfold replay lines heldSource
  simp only [String.toList_append]
  rfl

def heldOpened : List (NodeKind × Nat) := [
  (.program, 0), (.function, 1), (.block, 2), (.switch, 3), (.switchCase, 8), (.switchExit, 9),
  (.block, 10), (.ret, 11)]

set_option maxRecDepth 10000 in
theorem opened_once_held : opened {} (lines heldSource) = heldOpened ∧ ∀ o ∈ heldOpened,
    (Node.program heldProgram).subtree.countP (fun n => (n.kind, n.id) = o) = 1 := by
  have back : returnsAll {} (lines heldSource) = true := by
    unfold lines heldSource
    simp only [String.toList_append]
    rfl
  have all : opened {} (lines heldSource) = heldOpened := by
    unfold lines heldSource
    simp only [String.toList_append]
    rfl
  exact ⟨all, all ▸ opened_once replay_held back⟩

end Script

end StackCompiler
