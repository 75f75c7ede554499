import StackCompiler.Proofs.Semantics.Simulates

/-!
The code of an expression leaves the value of the expression on the stack, provided that the code of
its operands does. Lists of expressions leave their values one upon the other.
-/

namespace StackCompiler

namespace Semantics

open Assembly Machine

variable {code : Code} {k : Context}

section

variable {eval : Expression → Exec Value}

theorem simulates_evaluate {operand : Leaf → Exec Value} {t : Infix Leaf}
    (h : ∀ l ∈ t.leaves, ∀ {position pushed s}, CodeAt code position (lowering.leaf l) →
      Simulates code (k.at position pushed s) (operand l s)
        (k.Pushed (position + (lowering.leaf l).length) pushed))
    {position : Nat} {pushed : List Value} {s : Store} (hc : CodeAt code position (t.lower lowering)) :
    Simulates code (k.at position pushed s) (evaluate operand t s)
      (k.Pushed (position + (t.lower lowering).length) pushed) := by
  induction t generalizing position pushed s with
  | leaf l => exact h l (by simp [Infix.leaves]) hc
  | unary op isUnary t ih =>
    simp only [Infix.lower, codeAt_append, codeAt_cons, List.length_append, List.length_cons,
      List.length_nil] at hc ⊢
    refine (ih (fun l hl => h l hl) hc.1).bind fun v s' o' ho => ?_
    rw [ho]
    exact simulates_applyUnary isUnary hc.2.1
  | binary op isBinary l r ihl ihr =>
    simp only [Infix.lower, codeAt_append, codeAt_cons, List.length_append, List.length_cons,
      List.length_nil] at hc ⊢
    obtain ⟨⟨hl, hr⟩, ho, -⟩ := hc
    refine (ihl (fun l hl => h l (List.mem_append_left _ hl)) hl).bind fun v s' o' hv => ?_
    rw [hv]
    refine (ihr (fun l hl => h l (List.mem_append_right _ hl)) hr).bind fun w s'' o'' hw => ?_
    rw [← Nat.add_assoc] at ho
    rw [hw, Nat.zero_add, ← Nat.add_assoc, ← Nat.add_assoc]
    exact simulates_applyBinary isBinary ho

/-- The code of the expression leaves its value on the stack. -/
def Evaluates (code : Code) (k : Context) (eval : Expression → Exec Value) (e : Expression) : Prop :=
  ∀ {position pushed s}, CodeAt code position (lowering.expression e) →
    Simulates code (k.at position pushed s) (eval e s)
      (k.Pushed (position + (lowering.expression e).length) pushed)

theorem simulates_evaluateAll {es : List Expression} (h : ∀ e ∈ es, Evaluates code k eval e)
    {position : Nat} {pushed : List Value} {s : Store}
    (hc : CodeAt code position (es.flatMap lowering.expression)) :
    Simulates code (k.at position pushed s) (evaluateAll eval es s) fun vs t o =>
      vs.length = es.length ∧
        k.PushedAll (position + (es.flatMap lowering.expression).length) pushed vs t o := by
  induction es generalizing position pushed s with
  | nil => exact .pure ⟨rfl, rfl⟩
  | cons e es ih =>
    simp only [List.flatMap_cons, codeAt_append, List.length_append] at hc ⊢
    refine (h e List.mem_cons_self hc.1).bind fun v s' o' hv => ?_
    rw [hv]
    refine (ih (fun e' he' => h e' (List.mem_cons_of_mem _ he')) hc.2).bind fun vs t o ho => ?_
    refine .pure ⟨by simp [ho.1], ho.2.trans ?_⟩
    rw [← Nat.add_assoc, List.reverse_cons, List.append_assoc, List.singleton_append]

theorem simulates_evaluateField {e : Option Expression} (he : e.isSome)
    (h : ∀ e' ∈ e.toList, Evaluates code k eval e') {position : Nat} {pushed : List Value} {s : Store}
    (hc : CodeAt code position (lowering.value e)) :
    Simulates code (k.at position pushed s) (evaluateField eval e s)
      (k.Pushed (position + (lowering.value e).length) pushed) := by
  obtain ⟨e, rfl⟩ := Option.isSome_iff_exists.mp he
  exact h e (by simp) hc

theorem simulates_amount {step : Option Expression} (h : ∀ e ∈ step.toList, Evaluates code k eval e)
    {position : Nat} {pushed : List Value} {s : Store}
    (hc : CodeAt code position (amountCode step)) :
    Simulates code (k.at position pushed s) (amount eval step s)
      (k.Pushed (position + (amountCode step).length) pushed) := by
  cases step with
  | some e => exact h e (by simp) hc
  | none => exact simulates_literal (codeAt_cons.mp hc).1 rfl

theorem simulates_compareAll {scrutinee : Option Expression} (hs : scrutinee.isSome)
    (h : ∀ e ∈ scrutinee.toList, Evaluates code k eval e) {values : List Expression}
    (hv : ∀ e ∈ values, Evaluates code k eval e) {position : Nat} {pushed : List Value} {s : Store}
    (hc : CodeAt code position (values.flatMap fun value =>
      lowering.value scrutinee ++ lowering.expression value ++ [stackBinary .eq])) :
    Simulates code (k.at position pushed s) (compareAll eval scrutinee values s) fun vs t o =>
      vs.length = values.length ∧ k.PushedAll (position + (values.flatMap fun value =>
        lowering.value scrutinee ++ lowering.expression value ++ [stackBinary .eq]).length)
          pushed vs t o := by
  induction values generalizing position pushed s with
  | nil => exact .pure ⟨rfl, rfl⟩
  | cons e es ih =>
    rw [List.flatMap_cons, codeAt_append, codeAt_append, codeAt_append, codeAt_cons] at hc
    obtain ⟨⟨⟨hleft, hright⟩, heq, -⟩, hrest⟩ := hc
    refine (simulates_evaluateField hs h hleft).bind fun left s₁ o₁ h₁ => ?_
    rw [h₁]
    refine (hv e List.mem_cons_self hright).bind fun right s₂ o₂ h₂ => ?_
    rw [h₂]
    rw [List.length_append, ← Nat.add_assoc] at heq
    refine (simulates_binary heq).bind fun v s₃ o₃ h₃ => ?_
    have ends : position + (lowering.value scrutinee).length + (lowering.expression e).length + 1 =
        position + (lowering.value scrutinee ++ lowering.expression e ++
          [stackBinary .eq]).length := by
      simp only [List.length_append, List.length_cons, List.length_nil]
      omega
    rw [h₃, ends]
    refine (ih (fun e' he' => hv e' (List.mem_cons_of_mem _ he')) hrest).bind fun vs t o ho => ?_
    refine .pure ⟨by simp [ho.1], ho.2.trans ?_⟩
    simp only [List.flatMap_cons, List.length_append, List.length_cons, List.reverse_cons,
      List.append_assoc, List.cons_append, List.nil_append, Nat.add_assoc, List.length_nil,
      Nat.zero_add, Nat.add_comm 1]

end

theorem isTruthy_truth (b : Bool) : (Value.truth b).isTruthy = b := by
  cases b <;> decide

/-- Joining the verdicts leaves one that is true if any of them is. -/
theorem reaches_ors {position : Nat} {s : Store} (pushed : List Value) (v : Value) (vs : List Value)
    (hc : CodeAt code position (List.replicate vs.length (stackBinary .or))) :
    ∃ joined, Reaches code (k.at position (v :: vs ++ pushed) s)
        (k.at (position + vs.length) (joined :: pushed) s) ∧
      joined.isTruthy = (v :: vs).any Value.isTruthy := by
  induction vs generalizing v position with
  | nil => exact ⟨v, .refl, by simp⟩
  | cons w vs ih =>
    rw [List.length_cons, List.replicate_succ, codeAt_cons] at hc
    obtain ⟨o, ho, rfl⟩ : Simulates code (k.at position (v :: w :: (vs ++ pushed)) s)
        (checked (Value.applyBinary .or w v) s) (k.Pushed (position + 1) (vs ++ pushed)) :=
      simulates_binary hc.1
    obtain ⟨joined, h, ht⟩ := ih (Value.truth (w.isTruthy || v.isTruthy)) hc.2
    refine ⟨joined, ho.trans ?_, ?_⟩
    · rwa [List.length_cons, Nat.add_comm vs.length, ← Nat.add_assoc]
    · rw [ht]
      simp only [List.any_cons, isTruthy_truth]
      cases w.isTruthy <;> cases v.isTruthy <;> rfl

end Semantics

end StackCompiler
