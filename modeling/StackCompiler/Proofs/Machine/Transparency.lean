import StackCompiler.Proofs.Machine.Balance

/-!
What a call within an expression does to the operands that wait for its value. The values that call
statements leave behind come between them and it.
-/

namespace StackCompiler.Machine

open Assembly Script

/-- Control is behind the call, in the call of a function that it was in before. -/
def Behind (s : State) (c : Call) (t : State) : Prop :=
  t.frames.length = s.frames.length ∧ t.position = s.position + (lowering.callCode c).length

instance (s : State) (c : Call) (t : State) : Decidable (Behind s c t) :=
  inferInstanceAs (Decidable (_ ∧ _))

theorem length_callCode (c : Call) :
    (Ledger.lowering.callCode c).length = (lowering.callCode c).length := by
  rw [← Ledger.maps_lowering.callCode, List.length_map]

/-- A run gets from before a call within an expression to behind it, and every function that ended on
the way ended with a return. The value of the call is on top then, and between it and the operands
that wait for it are as many values as the run has executed call statements that leave one. -/
theorem values_after_call {source : String} {built : Built} (h : replay source = .ok built)
    (regular : (Node.program built.program).Every (Node.Regular built.program)) {c : Call}
    (hc : .call c ∈ (Node.program built.program).subtree) (hprint : c.builtin? ≠ some .print)
    {s t : State} (here : CodeAt (Ledger.ofProgram built.program) s.position
      (Ledger.lowering.callCode c)) {steps : Nat}
    (run : resume (Assembly.ofProgram built.program) steps (.running s) = .running t)
    (hb : Behind s c t) (before : ∀ k < steps, ∀ u,
      resume (Assembly.ofProgram built.program) k (.running s) = .running u →
        ¬ Behind s c u ∧ ¬ AtEnding built.program u.position) :
    ∃ v left, t.values.items = v :: (left ++ s.values.items) ∧
      left.length = leftBehind built.program steps s := by
  have values := replay_every (kept_hasValues _) h
  have proper : Proper built.program (.program built.program) :=
    fun m hm => ⟨regular m hm, values m hm⟩
  have inside : Proper built.program (.call c) := fun m hm => proper m (Node.mem_subtree_trans hc hm)
  have start : Balanced built.program
      (InExpression built.program (s.position + (lowering.callCode c).length)) s.values.items
      s.returns 0 s := by
    refine ⟨[], 0, 0, 0, [], .base ⟨_, here, ?_, fun b => Ledger.level_call inside hprint⟩, rfl, rfl,
      rfl, rfl⟩
    rw [length_callCode]
  have depth (u : State) : u.returns.length = s.returns.length ↔ u.frames.length = s.frames.length := by
    rw [State.returns, State.returns, List.length_map, List.length_map]
  obtain ⟨returns, counted, pending, left, top, chain, hreturns, hitems, htop, hleft⟩ :=
    start.run proper (linked_ofProgram (replay_ids_nodup h)) (base_inExpression s.returns)
      (fun k hk u hu => ⟨fun hd hp => (before k hk u hu).1 ⟨(depth u).mp hd, hp⟩,
        (before k hk u hu).2⟩) run
  have none : returns = [] := by
    have := (depth t).mpr hb.1
    rw [hreturns, List.length_append] at this
    exact List.length_eq_zero_iff.mp (by omega)
  subst none
  cases chain with
  | base inExpression =>
    obtain ⟨rest, -, hstop, level⟩ := inExpression
    have empty : rest = [] := List.length_eq_zero_iff.mp (by have := hb.2; omega)
    subst empty
    have one : 0 + counted = 0 + 1 := level 0
    cases top with
    | nil => simp at htop; omega
    | cons v top =>
      refine ⟨v, top, hitems, ?_⟩
      rw [List.length_cons] at htop
      omega

def sampleCall : Call := ⟨13, "inc", [⟨14, [.leaf (.constant ⟨15, "2"⟩)]⟩]⟩

/-- The first operand of the difference is on the stack. -/
def sampleState : State :=
  { position := 11, values := ⟨[.number 10]⟩, frames := [⟨none, []⟩], console := {} }

def sampleGoesOn : Outcome → Bool
  | .running u => ¬ Behind sampleState sampleCall u ∧ ¬ AtEnding sampleProgram u.position
  | .halted _ _ => true

theorem values_after_call_sample : ∃ w t, resume (Assembly.ofProgram sampleProgram) 9
    (.running sampleState) = .running t ∧ t.values.items = [w, .number 10] := by
  have member : Node.call sampleCall ∈ (Node.program sampleProgram).subtree := by
    simp only [Node.subtree_eq, sampleProgram, Node.children, List.map_cons, List.map_nil,
      List.flatMap_cons, List.flatMap_nil, Option.toList_some, Statement.node,
      List.filterMap_cons, List.filterMap_nil, Token.node?, Leaf.node?, List.append_nil,
      List.cons_append, List.nil_append, List.mem_cons, sampleCall, true_or, or_true]
  have here : CodeAt (Ledger.ofProgram sampleProgram) 11 (Ledger.lowering.callCode sampleCall) := by
    unfold CodeAt
    decide +kernel
  obtain ⟨t, ht⟩ : ∃ t, resume (Assembly.ofProgram sampleProgram) 9 (.running sampleState) =
      .running t := ⟨_, rfl⟩
  have behind : ∀ u, resume (Assembly.ofProgram sampleProgram) 9 (.running sampleState) =
      .running u → Behind sampleState sampleCall u := by
    rintro u ⟨⟩
    exact ⟨rfl, by decide +kernel⟩
  have before : ∀ k < 9, sampleGoesOn
      (resume (Assembly.ofProgram sampleProgram) k (.running sampleState)) = true := by
    decide +kernel
  obtain ⟨w, left, hv, hl⟩ := values_after_call replay_sample sample_regular member (by decide) here
    ht (behind t ht) fun k hk u hu => by
      have := before k hk
      rw [hu] at this
      exact of_decide_eq_true this
  have nothing : leftBehind sampleProgram 9 sampleState = 0 := by decide +kernel
  rw [nothing, List.length_eq_zero_iff] at hl
  subst hl
  exact ⟨w, t, ht, hv⟩

end StackCompiler.Machine
