import StackCompiler.Proofs.Assembly.Linking
import StackCompiler.Proofs.Semantics.Expressions

/-!
The code of statements goes where the walk says that control goes. Behind the statement nothing is
left on the stack; an exit stands at a jump to its target, and a return on its result.
-/

namespace StackCompiler.Semantics

open Assembly Machine

/-- Where control is after a flow, the position being the one behind the statement. -/
def Context.Left (k : Context) (code : Code) (position : Nat) : Flow → Store → Outcome → Prop
  | .onward, s, o => o = k.at position [] s
  | .leaveSwitch target, s, o =>
    ∃ j, code[j]? = some (.jump (.forNode "Exit" .switch target)) ∧ o = k.at j [] s
  | .leaveLoop target, s, o =>
    ∃ j, code[j]? = some (.jump (.forNode "Exit" .loop target)) ∧ o = k.at j [] s
  | .returned v, s, o => ∃ j, code[j]? = some .out ∧ o = k.at j [v] s

/-- The code of the statement does what its walk does. -/
def Executes (code : Code) (k : Context) (run : Statement → Exec Flow) (st : Statement) : Prop :=
  ∀ {position s}, CodeAt code position (statement st) →
    Simulates code (k.at position [] s) (run st s)
      (k.Left code (position + (statement st).length))

/-- Control that goes on does so from a later place; exits and returns stay where they are. -/
theorem Simulates.onwardTo {code : Code} {k : Context} {o : Outcome} {position later : Nat}
    {result : EStateM.Result Stop Store Flow} (h : Simulates code o result (k.Left code position))
    (move : ∀ s, Reaches code (k.at position [] s) (k.at later [] s)) :
    Simulates code o result (k.Left code later) := by
  refine h.extend fun flow s o ho => ?_
  cases flow with
  | onward => exact ⟨_, by rw [show o = _ from ho]; exact move s, rfl⟩
  | leaveSwitch target | leaveLoop target | returned v => exact ⟨o, .refl, ho⟩

variable {code : Code} {k : Context} {eval : Expression → Exec Value}
  {run : Statement → Exec Flow}

theorem simulates_walkAll {ss : List Statement} (h : ∀ st ∈ ss, Executes code k run st)
    {position : Nat} {s : Store} (hc : CodeAt code position (statements ss)) :
    Simulates code (k.at position [] s) (walkAll run ss s)
      (k.Left code (position + (statements ss).length)) := by
  induction ss generalizing position s with
  | nil => exact .pure rfl
  | cons st ss ih =>
    rw [statements, codeAt_append] at hc
    refine (h st List.mem_cons_self hc.1).bind fun flow t o ho => ?_
    cases flow with
    | onward =>
      rw [show o = _ from ho, statements, List.length_append, ← Nat.add_assoc]
      exact ih (fun st' hst' => h st' (List.mem_cons_of_mem _ hst')) hc.2
    | leaveSwitch target | leaveLoop target | returned v => exact .pure ho

theorem simulates_walkBody {b : Option Block}
    (h : ∀ b' ∈ b.toList, ∀ st ∈ b'.statements, Executes code k run st) {position : Nat} {s : Store}
    (hc : CodeAt code position (body b)) :
    Simulates code (k.at position [] s) (walkBody run b s)
      (k.Left code (position + (body b).length)) := by
  cases b with
  | none => exact .pure rfl
  | some b =>
    obtain ⟨id, ss⟩ := b
    exact simulates_walkAll (h ⟨id, ss⟩ (by simp)) hc

/-- Local labels are found where they stand. -/
def Resolved (code : Code) : Prop := ∀ {position l}, code[position]? = some (.label l) →
  l.IsLocal → labelPosition? code l = some position

theorem simulates_conditional {c : Conditional} (resolved : Resolved code)
    (filled : c.condition.isSome) (hcond : ∀ e ∈ c.condition.toList, Evaluates code k eval e)
    (hthen : ∀ b ∈ c.thenBlock.toList, ∀ st ∈ b.statements, Executes code k run st)
    (helse : ∀ b ∈ c.elseBlock.toList, ∀ st ∈ b.statements, Executes code k run st)
    {position : Nat} {s : Store} (hc : CodeAt code position (conditional c)) :
    Simulates code (k.at position [] s) ((do
        let v ← evaluateField eval c.condition
        walkBody run (if v.isTruthy then c.thenBlock else c.elseBlock)) s)
      (k.Left code (position + (conditional c).length)) := by
  simp only [conditional_eq, List.cons_append, List.append_assoc, List.nil_append, codeAt_cons,
    codeAt_append, codeAt_nil, and_true] at hc
  obtain ⟨hif, hvalue, hjump, hthenCode, hexit, helseLabel, helseCode, hexitLabel⟩ := hc
  have exits := resolved hexitLabel (Node.exitLabel_isLocal _ _)
  have length : position + (conditional c).length = position + 1 +
      (lowering.value c.condition).length + 1 + (body c.thenBlock).length + 1 + 1 +
        (body c.elseBlock).length + 1 := by
    simp only [conditional_eq, List.length_append, List.length_cons, List.length_nil]
    omega
  rw [length]
  refine .after (reaches_comment hif) ((simulates_evaluateField filled hcond hvalue).bind ?_)
  intro v t o ho
  rw [show o = _ from ho]
  refine .after (reaches_jumpFalse hjump (resolved helseLabel (Node.elseLabel_isLocal c))) ?_
  cases hv : v.isTruthy
  · refine .after (reaches_label helseLabel) ?_
    exact (simulates_walkBody helse helseCode).onwardTo fun _ => reaches_label hexitLabel
  · refine (simulates_walkBody hthen hthenCode).onwardTo fun _ => ?_
    exact (reaches_jump hexit exits).trans (reaches_label hexitLabel)

theorem simulates_caseTest {scrutinee : Option Expression} (filled : scrutinee.isSome)
    (hs : ∀ e ∈ scrutinee.toList, Evaluates code k eval e) {values : List Expression}
    (hne : values ≠ []) (hv : ∀ e ∈ values, Evaluates code k eval e) {position : Nat} {s : Store}
    (hc : CodeAt code position (caseTest scrutinee values)) :
    Simulates code (k.at position [] s) (compareAll eval scrutinee values s) fun vs t o =>
      ∃ joined, o = k.at (position + (caseTest scrutinee values).length) [joined] t ∧
        joined.isTruthy = vs.any Value.isTruthy := by
  rw [caseTest, codeAt_append] at hc
  refine (simulates_compareAll filled hs hv hc.1).extend fun vs t o ho => ?_
  obtain ⟨hlen, ho⟩ := ho
  obtain ⟨v, ws, hvs⟩ := List.exists_cons_of_ne_nil (l := vs.reverse) (by
    have := List.length_pos_iff.mpr hne
    rw [ne_eq, List.reverse_eq_nil_iff, ← List.length_eq_zero_iff]
    omega)
  have count : ws.length = values.length - 1 := by
    have := congrArg List.length hvs
    rw [List.length_reverse, List.length_cons] at this
    omega
  rw [show o = _ from ho, hvs]
  obtain ⟨joined, reach, truth⟩ := reaches_ors (k := k) (s := t) [] v ws (count ▸ hc.2)
  refine ⟨_, reach, joined, ?_, ?_⟩
  · rw [caseTest, List.length_append, List.length_replicate, count, ← Nat.add_assoc]
  · rw [truth, ← hvs, List.any_reverse]

section

variable {scrutinee : Option Expression} {fallback : Option Block} {exit : Label}
  {destination : Nat}

/-- Every case ends in a jump to the end of the switch, and so do its exits. -/
theorem simulates_chooseCase (resolved : Resolved code) (filled : scrutinee.isSome)
    (hs : ∀ e ∈ scrutinee.toList, Evaluates code k eval e)
    (hfallback : ∀ b ∈ fallback.toList, ∀ st ∈ b.statements, Executes code k run st)
    (hexit : labelPosition? code exit = some destination) {cases : List SwitchCase}
    (hvalues : ∀ c ∈ cases, c.values ≠ [] ∧ ∀ e ∈ c.values, Evaluates code k eval e)
    (hbodies : ∀ c ∈ cases, ∀ b ∈ c.body.toList, ∀ st ∈ b.statements, Executes code k run st)
    {position : Nat} {s : Store}
    (hc : CodeAt code position (cases.flatMap (switchCase scrutinee exit) ++ body fallback))
    (hend : position + (cases.flatMap (switchCase scrutinee exit) ++ body fallback).length =
      destination) :
    Simulates code (k.at position [] s) (chooseCase eval run scrutinee fallback cases s)
      (k.Left code destination) := by
  induction cases generalizing position s with
  | nil =>
    subst hend
    exact simulates_walkBody hfallback hc
  | cons c cases ih =>
    obtain ⟨hne, hv⟩ := hvalues c List.mem_cons_self
    rw [List.flatMap_cons, List.append_assoc, codeAt_append] at hc
    obtain ⟨hcase, hrest⟩ := hc
    rw [List.flatMap_cons, List.append_assoc, List.length_append, ← Nat.add_assoc] at hend
    simp only [switchCase_eq, List.append_assoc, List.cons_append, List.nil_append, codeAt_cons,
      codeAt_append, codeAt_nil, and_true] at hcase
    obtain ⟨htest, hskip, hbody, hjump, hlabel⟩ := hcase
    have length : position + (switchCase scrutinee exit c).length = position +
        (caseTest scrutinee c.values).length + 1 + (body c.body).length + 1 + 1 := by
      simp only [switchCase_eq, List.length_append, List.length_cons, List.length_nil]
      omega
    refine (simulates_caseTest filled hs hne hv htest).bind fun vs t o ho => ?_
    obtain ⟨joined, rfl, truth⟩ := ho
    refine .after (reaches_jumpFalse hskip (resolved hlabel (Node.skipLabel_isLocal c))) ?_
    rw [truth]
    split
    · refine (simulates_walkBody (hbodies c List.mem_cons_self) hbody).onwardTo fun _ => ?_
      exact reaches_jump hjump hexit
    · refine .after (reaches_label hlabel) ?_
      rw [length] at hrest hend
      exact ih (fun c' hc' => hvalues c' (List.mem_cons_of_mem _ hc'))
        (fun c' hc' => hbodies c' (List.mem_cons_of_mem _ hc')) hrest hend

end

theorem simulates_switch {w : Switch} (resolved : Resolved code) (filled : w.scrutinee.isSome)
    (hs : ∀ e ∈ w.scrutinee.toList, Evaluates code k eval e)
    (hfallback : ∀ b ∈ w.fallback.toList, ∀ st ∈ b.statements, Executes code k run st)
    (hvalues : ∀ c ∈ w.cases, c.values ≠ [] ∧ ∀ e ∈ c.values, Evaluates code k eval e)
    (hbodies : ∀ c ∈ w.cases, ∀ b ∈ c.body.toList, ∀ st ∈ b.statements, Executes code k run st)
    {position : Nat} {s : Store} (hc : CodeAt code position (switch w)) :
    Simulates code (k.at position [] s) ((do
        let flow ← chooseCase eval run w.scrutinee w.fallback w.cases
        return flow.pastSwitch w.id : Exec Flow) s)
      (k.Left code (position + (switch w).length)) := by
  rw [switch_eq, List.cons_append, List.cons_append, codeAt_cons, codeAt_append, codeAt_cons] at hc
  obtain ⟨hcomment, hcases, hlabel, -⟩ := hc
  have exits := resolved hlabel (Node.exitLabel_isLocal _ _)
  have length : position + (switch w).length = position + 1 +
      (w.cases.flatMap (switchCase w.scrutinee w.exitLabel) ++ body w.fallback).length + 1 := by
    simp only [switch_eq, List.length_append, List.length_cons, List.length_nil]
    omega
  rw [length]
  refine .after (reaches_comment hcomment) ?_
  refine (simulates_chooseCase resolved filled hs hfallback exits hvalues hbodies hcases rfl).bind
    fun flow t o ho => ?_
  refine Simulates.onwardTo ?_ fun _ => reaches_label hlabel
  cases flow with
  | onward | leaveLoop target | returned v => exact .pure ho
  | leaveSwitch target =>
    obtain ⟨j, hj, rfl⟩ := ho
    by_cases ht : target = some w.id
    · subst ht
      refine .after (reaches_jump hj exits) (.pure ?_)
      simp [Flow.pastSwitch, Context.Left]
    · refine .pure ?_
      rw [Flow.pastSwitch, if_neg ht]
      exact ⟨j, hj, rfl⟩

/-- Where the rounds of a loop begin, from the start of its code. -/
def conditionOffset (l : Loop) : Nat := 1 + (lowering.value l.start).length + 1

/-- The rounds that follow do as the walk does, so this round does too. -/
theorem simulates_round {l : Loop} (resolved : Resolved code) (filled : l.stop.isSome)
    (hstop : ∀ e ∈ l.stop.toList, Evaluates code k eval e)
    (hstep : ∀ e ∈ l.increment.toList, Evaluates code k eval e)
    (hbody : ∀ b ∈ l.body.toList, ∀ st ∈ b.statements, Executes code k run st)
    {position : Nat} (hc : CodeAt code position (loop l)) {again : Exec Flow}
    (hagain : ∀ s, Simulates code (k.at (position + conditionOffset l) [] s) (again s)
      (k.Left code (position + (loop l).length))) {s : Store} :
    Simulates code (k.at (position + conditionOffset l) [] s) (round eval run l again s)
      (k.Left code (position + (loop l).length)) := by
  have length : position + (loop l).length = position + conditionOffset l + 1 + 1 +
      (lowering.value l.stop).length + 1 + 1 + (body l.body).length +
        (amountCode l.increment).length + 1 + 1 + 1 := by
    simp only [loop_eq, increment_eq, conditionOffset, List.length_append, List.length_cons,
      List.length_nil]
    omega
  have start : position + conditionOffset l = position + 1 + (lowering.value l.start).length + 1 := by
    rw [conditionOffset, ← Nat.add_assoc, ← Nat.add_assoc]
  rw [length] at hagain ⊢
  rw [start] at hagain ⊢
  simp only [loop_eq, increment_eq, List.cons_append, List.append_assoc, List.nil_append,
    codeAt_cons, codeAt_append, codeAt_nil, and_true] at hc
  obtain ⟨-, -, -, hlabel, hvar, hstopCode, hless, hfalse, hbodyCode, hamount, hadd, hjump, hexit⟩ :=
    hc
  have again_at := resolved hlabel (Node.conditionLabel_isLocal l)
  have exits := resolved hexit (Node.exitLabel_isLocal _ _)
  refine .after (reaches_label hlabel) ?_
  refine (simulates_fetch hvar).bind fun current s₁ o₁ h₁ => ?_
  rw [show o₁ = _ from h₁]
  refine (simulates_evaluateField filled hstop hstopCode).bind fun last s₂ o₂ h₂ => ?_
  rw [show o₂ = _ from h₂]
  refine (simulates_binary hless).bind fun within s₃ o₃ h₃ => ?_
  rw [show o₃ = _ from h₃]
  refine .after (reaches_jumpFalse hfalse exits) ?_
  split
  · refine (simulates_walkBody hbody hbodyCode).bind fun flow s₄ o₄ h₄ => ?_
    cases flow with
    | onward =>
      rw [show o₄ = _ from h₄]
      refine (simulates_amount hstep hamount).bind fun step s₅ o₅ h₅ => ?_
      rw [show o₅ = _ from h₅]
      refine (simulates_advance hadd).bind fun _ s₆ o₆ h₆ => ?_
      rw [h₆]
      exact .after (reaches_jump hjump again_at) (hagain s₆)
    | leaveLoop target =>
      obtain ⟨j, hj, rfl⟩ := h₄
      refine Simulates.onwardTo ?_ fun _ => reaches_label hexit
      by_cases ht : target = some l.id
      · subst ht
        refine .after (reaches_jump hj exits) (.pure ?_)
        simp [Flow.pastLoop, Context.Left]
      · refine .pure ?_
        rw [Flow.pastLoop, if_neg ht]
        exact ⟨j, hj, rfl⟩
    | leaveSwitch target | returned v => exact .pure h₄
  · exact .after (reaches_label hexit) (.pure rfl)

end StackCompiler.Semantics
