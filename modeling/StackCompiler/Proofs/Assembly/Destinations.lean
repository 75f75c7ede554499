import StackCompiler.Proofs.Assembly.Labels
import StackCompiler.Proofs.Assembly.Sources
import StackCompiler.Proofs.Machine.Effect
import StackCompiler.Proofs.Tree.Scope

/-!
Where the jumps of a function lead. If its exits aim at what is around them, every jump has its label
in the function itself, but for those of exits that have nothing to leave.
-/

namespace StackCompiler

/-- The label of an exit without a target, which no node has. -/
def Node.strayText? : Node → Option String
  | switchExit ⟨_, none⟩ => some "$$Exit_Switch$$"
  | loopExit ⟨_, none⟩ => some "$$Exit_Loop$$"
  | _ => none

namespace Assembly

theorem destination?_operatorInstruction (op : Operator) :
    (operatorInstruction op).destination? = none := by
  unfold operatorInstruction
  split <;> split <;> rfl

theorem destination?_callInstruction (name : String) (count : Nat) :
    (callInstruction name count).destination? = none := by
  unfold callInstruction
  split <;> rfl

end Assembly

namespace Node

open Assembly

/-- A node jumps to a label of its own, unless it is an exit. -/
theorem destination_of_mem_instructions {n : Node} {i : Instruction} {l : Label}
    (hi : i ∈ n.instructions) (hl : i.destination? = some l) : l ∈ n.ownLabels ∨
      (∃ e, n = switchExit e ∧ l = e.targetLabel) ∨ ∃ e, n = loopExit e ∧ l = e.targetLabel := by
  cases n with
  | switchExit e =>
    obtain rfl := List.mem_singleton.mp hi
    cases hl
    exact .inr (.inl ⟨e, rfl, rfl⟩)
  | loopExit e =>
    obtain rfl := List.mem_singleton.mp hi
    cases hl
    exact .inr (.inr ⟨e, rfl, rfl⟩)
  | expression e =>
    obtain ⟨step, -, hs⟩ := List.mem_filterMap.mp hi
    cases step with
    | operand o =>
      cases o <;> cases hs
      cases hl
    | apply op =>
      cases hs
      rw [destination?_operatorInstruction] at hl
      cases hl
  | call c =>
    simp only [instructions, List.mem_cons, List.not_mem_nil, or_false] at hi
    obtain rfl | rfl := hi
    · cases hl
    · rw [destination?_callInstruction] at hl
      cases hl
  | program | function | block | assignment | ret | loop | conditional | switch | switchCase
  | identifier =>
    -- only the two kinds of jumps are left, which these nodes have few of
    left
    cases i <;> cases hl <;>
      simp [instructions, store, stackBinary, lowering] at hi <;> simp [ownLabels, hi]

/-- An exit that aims right jumps to what is around it, if there is anything. -/
theorem destination_mem {n m : Node} (h : n.Follows Scope.Aims {}) (hm : m ∈ n.subtree)
    {i : Instruction} {l : Label} (hi : i ∈ m.instructions) (hl : i.destination? = some l) :
    l ∈ n.collect ownLabels ∨ m.strayText? = some l.text := by
  have own {m : Node} (hm : m ∈ n.subtree) (h : l ∈ m.ownLabels) : l ∈ n.collect ownLabels :=
    List.mem_flatMap.mpr ⟨m, hm, h⟩
  obtain ⟨τ, aims, within⟩ := h.of_mem hm
  obtain inner | ⟨⟨id, target⟩, rfl, rfl⟩ | ⟨⟨id, target⟩, rfl, rfl⟩ :=
    destination_of_mem_instructions hi hl
  · exact .inl (own hm inner)
  · obtain nothing | ⟨w, hw, ht⟩ := within.switch
    · obtain rfl : target = none := aims.trans nothing
      exact .inr rfl
    · obtain rfl : target = some w.id := aims.trans ht
      exact .inl (own hw (List.mem_singleton.mpr rfl))
  · obtain nothing | ⟨w, hw, ht⟩ := within.loop
    · obtain rfl : target = none := aims.trans nothing
      exact .inr rfl
    · obtain rfl : target = some w.id := aims.trans ht
      exact .inl (own hw (by simp [ownLabels, Loop.exitLabel, LoopExit.targetLabel]))

end Node

namespace Assembly

theorem destination_mem_labels {f : Function} (h : (Node.function f).Follows Scope.Aims {})
    {i : Instruction} {l : Label} (hi : i ∈ function f) (hl : i.destination? = some l) :
    l ∈ labels (function f) ∨ ∃ n ∈ (Node.function f).subtree, n.strayText? = some l.text := by
  have own : (Node.function f).Every fun m => ∀ i ∈ m.instructions, ∀ l,
      i.destination? = some l → l ∈ (Node.function f).collect Node.ownLabels ∨
        ∃ n ∈ (Node.function f).subtree, n.strayText? = some l.text := fun m hm i hi l hl =>
    (Node.destination_mem h hm hi hl).imp_right fun stray => ⟨m, hm, stray⟩
  have all := Node.forall_mem_code own none (.forFunction "") (by simp [Node.kind])
  refine (all i hi l hl).imp_left fun mem => ?_
  have tree := Node.count_labels (.function f) none l l
  rw [Node.code] at tree
  rw [← List.count_pos_iff, tree]
  exact List.count_pos_iff.mpr mem

end Assembly

end StackCompiler
