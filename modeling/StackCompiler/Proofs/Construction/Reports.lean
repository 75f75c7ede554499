import StackCompiler.Proofs.Construction.Move

/-!
What a construction reports. Reports are never taken back, and an exit that has nothing to leave is
reported when it is opened, so that there are no more such exits than reports about them.
-/

namespace StackCompiler

/-- What is reported about an exit without a target. -/
def Node.complaint : Node → List Diagnostic
  | switchExit ⟨_, none⟩ => [.missingContext "begin-break" .switch "break"]
  | loopExit ⟨_, none⟩ => [.missingContext "begin-loop-exit" .loop "exit"]
  | _ => []

def Stock.complaints (s : Stock) : List Diagnostic :=
  (s.items ++ s.loose).flatMap (Node.collect Node.complaint)

namespace Node

variable {n : Node}

theorem complaint_of_kind (hs : n.kind ≠ .switchExit) (hl : n.kind ≠ .loopExit) :
    n.complaint = [] := by
  cases n <;> first | rfl | exact absurd rfl hs | exact absurd rfl hl

theorem complaint_operand (h : n.isOperand) : n.complaint = [] := by
  cases n <;> first | rfl | cases h

@[simp] theorem collect_complaint_expression (e : Expression) :
    (expression e).collect complaint = [] := collect_operand complaint_operand rfl

@[simp] theorem collect_complaint_identifier (i : Identifier) :
    (identifier i).collect complaint = [] := collect_operand complaint_operand rfl

@[simp] theorem collect_complaint_call (c : Call) : (call c).collect complaint = [] :=
  collect_operand complaint_operand rfl

theorem collect_complaint_opening (o : Opening) (k : Nat) : (o.node k).collect complaint = [] := by
  rw [collect_eq]
  cases o <;> rfl

theorem complaint_place {parent child : Node} (h : parent.place child = some n) :
    n.complaint = parent.complaint := by
  have kind := (place_same h).1
  cases parent with
  | switchExit e | loopExit e => cases child <;> cases h
  | _ =>
    rw [complaint_of_kind (by rw [kind]; nofun) (by rw [kind]; nofun)]
    rfl

end Node

open Node in
/-- Only opening an exit adds to what there is to report. -/
theorem Move.count_complaints {terms : Terms} (noExits : ¬ terms.exits) {s t : Stock}
    (h : Move terms s t) (d : Diagnostic) : t.complaints.count d ≤ s.complaints.count d := by
  cases h <;> simp only [Stock.complaints, List.cons_append, List.append_assoc, List.flatMap_cons,
    List.flatMap_append, List.count_append, collect_complaint_expression,
    collect_complaint_identifier, collect_complaint_call, List.nil_append, Nat.le_refl]
  case start o items loose k =>
    rw [collect_complaint_opening]
    simp
  case startExit ok => exact absurd ok noExits
  case rename n n' below loose k ok hn =>
    have same : n'.collect complaint = n.collect complaint := by
      cases n <;> cases hn <;> exact collect_of_fields rfl rfl
    exact Nat.le_of_eq (by rw [same])
  case parameter name above f below loose k ok =>
    have same : (function { f with params := f.params ++ [name] }).collect complaint =
        (function f).collect complaint := collect_of_fields rfl rfl
    exact Nat.le_of_eq (by rw [same])
  case operand => omega
  case splice => omega
  case place child parent n below loose k hn =>
    have sum := count_collect_of_perm (children_place hn) (complaint_place hn) d
    omega
  case announceDefault above w below loose k ha =>
    have same : (switch { w with fallbackSeen := true }).collect complaint =
        (switch w).collect complaint := collect_of_fields rfl rfl
    exact Nat.le_of_eq (by rw [same])
  case fallback b above w below loose k ha hw hs =>
    have sum : ((switch { w with fallback := some b }).collect complaint).count d =
        ((switch w).collect complaint).count d + ((block b).collect complaint).count d :=
      count_collect_of_perm (children_fallback b hw) rfl d
    omega
  case closeCase b c w below loose k hs =>
    have filled : ((switchCase { c with body := some b }).collect complaint).count d ≤
        ((switchCase c).collect complaint).count d + ((block b).collect complaint).count d :=
      count_collect_body c b rfl d
    have sum : ((switch { w with cases := w.cases ++ [{ c with body := some b }] }).collect
        complaint).count d = ((switch w).collect complaint).count d +
          ((switchCase { c with body := some b }).collect complaint).count d :=
      count_collect_of_perm (children_cases w _) rfl d
    omega
  case firstValue v items loose k hi =>
    have empty : (switchCase (.first k v)).collect complaint = [] := by
      simp [collect_eq _ (switchCase _), complaint, children, SwitchCase.first]
    simp [empty]
  case nextValue v c below loose k =>
    have sum : ((switchCase { c with values := c.values ++ [v] }).collect complaint).count d =
        ((switchCase c).collect complaint).count d + ((expression v).collect complaint).count d :=
      count_collect_of_perm (children_values c v) rfl d
    rw [collect_complaint_expression, List.count_nil] at sum
    omega
  case handOver taken left loose k ok =>
    have turned := (taken.reverse_perm.flatMap_right (collect complaint)).count_eq d
    omega
  case takeBack taken items loose k =>
    have turned := (taken.reverse_perm.flatMap_right (collect complaint)).count_eq d
    omega
  case forget lost items loose k => omega

theorem Moves.count_complaints {terms : Terms} (noExits : ¬ terms.exits) {s t : Stock}
    (h : Moves terms s t) (d : Diagnostic) : t.complaints.count d ≤ s.complaints.count d := by
  induction h with
  | refl => exact Nat.le_refl _
  | tail _ move ih => exact Nat.le_trans (move.count_complaints noExits d) ih

/-- Every exit without a target, open or not, has a report of its own. -/
def Construction.Reports (s : Construction) (loose : List Node) : Prop :=
  ∀ d, (s.stock loose).complaints.count d ≤ s.diagnostics.count d

namespace Construction

variable {s t : Construction} {loose : List Node}

theorem diagnostics_openExit (exit : ExitKind) : (s.openExit exit).diagnostics = s.diagnostics ++
    (exit.node s.nextId ((s.items.find? (·.kind == exit.left)).map Node.id)).complaint := by
  unfold openExit
  cases (s.items.find? (·.kind == exit.left)).map Node.id with
  | none => cases exit <;> rfl
  | some target => cases exit <;> exact (List.append_nil _).symm

/-- Nothing that was reported is forgotten. -/
theorem diagnostics_perform (a : Action) : s.diagnostics <+: (s.perform a).2.diagnostics := by
  by_cases opens : ∃ exit, a = .startExit exit
  · obtain ⟨exit, rfl⟩ := opens
    rw [perform_startExit, diagnostics_openExit]
    exact List.prefix_append _ _
  · have plain (exit : ExitKind) : a ≠ .startExit exit := fun h => opens ⟨exit, h⟩
    exact (onlyReports_perform (plain .switch) (plain .loop)).grows

theorem Reports.moves {terms : Terms} (noExits : ¬ terms.exits) {loose' : List Node}
    (h : s.Reports loose) (moves : Moves terms (s.stock loose) (t.stock loose'))
    (grown : s.diagnostics <+: t.diagnostics) : t.Reports loose' := fun d =>
  Nat.le_trans (moves.count_complaints noExits d)
    (Nat.le_trans (h d) (grown.sublist.count_le d))

theorem Reports.openExit (h : s.Reports loose) (exit : ExitKind) :
    (s.openExit exit).Reports loose := by
  intro d
  have old := h d
  rw [stock_openExit, diagnostics_openExit]
  simp only [Stock.complaints, stock, List.cons_append, List.flatMap_cons, List.count_append,
    Node.collect_eq _ (exit.node _ _), Node.children_exit, List.flatMap_nil,
    List.count_nil] at old ⊢
  omega

end Construction

end StackCompiler
