import StackCompiler.Proofs.Assembly.Linking
import StackCompiler.Proofs.Assembly.Sources

/-!
The comments where functions end. No other comment looks like one of them, and a function whose last
statement returns has the return right before it.
-/

namespace StackCompiler

/-- A function without a body has no last statement. -/
def Function.EndsInReturn (f : Function) : Prop :=
  ∃ b r, f.body = some b ∧ b.statements.getLast? = some (.ret r)

namespace Assembly

/-- Such a comment starts with another letter than the rest. -/
def Instruction.IsEnding (i : Instruction) : Prop := ∃ f : Function, i = .comment f.ending

theorem head?_of_isEnding {text : String} (h : (Instruction.comment text).IsEnding) :
    text.toList.head? = some 'e' := by
  obtain ⟨f, hf⟩ := h
  cases hf
  simp [Function.ending, String.toList_append]

theorem not_isEnding_operatorInstruction (op : Operator) : ¬ (operatorInstruction op).IsEnding := by
  rintro ⟨f, hf⟩
  rw [operatorInstruction] at hf
  split at hf <;> split at hf <;> cases hf

theorem not_isEnding_callInstruction (name : String) (count : Nat) :
    ¬ (callInstruction name count).IsEnding := by
  rintro ⟨f, hf⟩
  rw [callInstruction] at hf
  split at hf <;> cases hf

/-- Only functions have such comments. -/
theorem not_isEnding_instructions {n : Node} (hn : n.isInner) :
    ∀ i ∈ n.instructions, ¬ i.IsEnding := by
  have other {text : String} (h : text.toList.head? ≠ some 'e') :
      ¬ (Instruction.comment text).IsEnding := fun bad => h (head?_of_isEnding bad)
  cases n with
  | program p | function f => cases hn
  | expression e =>
    simp only [Node.instructions, List.forall_mem_filterMap]
    intro step _
    cases step with
    | operand l => cases l <;> simp [lowering, Instruction.IsEnding]
    | apply op => simpa using not_isEnding_operatorInstruction op
  | loop l =>
    have comment := @other s!"for {l.var}" (by simp [toString, String.toList_append])
    simpa [Node.instructions, store, stackBinary, Instruction.IsEnding] using comment
  | conditional c =>
    have comment := @other "if" (by decide)
    simpa [Node.instructions, Instruction.IsEnding] using comment
  | switch s =>
    have comment := @other "switch" (by decide)
    simpa [Node.instructions, Instruction.IsEnding] using comment
  | call c =>
    have comment := @other s!"call {c.name} with {c.args.length} args"
      (by simp [toString, String.toList_append])
    simpa [Node.instructions, not_isEnding_callInstruction] using comment
  | _ => simp [Node.instructions, store, stackBinary, lowering, Instruction.IsEnding]

theorem not_isEnding_block (b : Block) : ∀ i ∈ block b, ¬ i.IsEnding :=
  Node.forall_mem_code (n := .block b)
    (fun _ hm => not_isEnding_instructions (Node.isInner_subtree (n := .block b) rfl hm))
    none (.forFunction "") (by simp [Node.kind])

/-- A function that returns at its end has nothing else of the kind before. -/
theorem function_eq_of_endsInReturn {f : Function} (h : f.EndsInReturn) :
    ∃ part, function f = part ++ [.out, .comment f.ending] ∧ ∀ i ∈ part, ¬ i.IsEnding := by
  obtain ⟨b, r, hb, hr⟩ := h
  obtain ⟨before, hs⟩ := List.getLast?_eq_some_iff.mp hr
  have last : block b = before.flatMap statement ++ (lowering.value r.value ++ [.out]) := by
    rw [block_eq, hs, List.flatMap_append, List.flatMap_singleton]
    rfl
  refine ⟨[.comment f.heading, .label f.label] ++ f.params.reverse.map store ++
    (before.flatMap statement ++ lowering.value r.value), ?_, ?_⟩
  · rw [function, hb, body, last]
    simp
  · have inside := not_isEnding_block b
    have heading : ¬ (Instruction.comment f.heading).IsEnding := fun bad => by
      simpa [Function.heading, String.toList_append] using head?_of_isEnding bad
    simp only [last, List.forall_mem_append] at inside
    simp only [List.forall_mem_append, List.forall_mem_cons, List.forall_mem_map]
    exact ⟨⟨⟨heading, by simp [Instruction.IsEnding]⟩, by simp [store, Instruction.IsEnding]⟩,
      inside.1, inside.2.1⟩

/-- The end of a function comes behind its return. -/
theorem out_before_ending {p : Program} (h : ∀ f ∈ p.functions, f.EndsInReturn) {position : Nat}
    {i : Instruction} (hi : (ofProgram p)[position]? = some i) (ending : i.IsEnding) :
    ∃ before, position = before + 1 ∧ (ofProgram p)[before]? = some .out := by
  obtain ⟨f, hf, start, offset, found, rfl, hoffset⟩ := exists_codeAt_of_getElem? hi
  obtain ⟨part, hpart, plain⟩ := function_eq_of_endsInReturn (h f hf)
  rw [hpart] at found hoffset
  rw [codeAt_append, codeAt_cons] at found
  obtain before | ⟨behind, rfl⟩ : offset < part.length ∨ ∃ k, offset = part.length + k :=
    (Nat.lt_or_ge offset part.length).imp_right Nat.exists_eq_add_of_le
  · rw [List.getElem?_append_left before] at hoffset
    exact absurd ending (plain i (List.mem_of_getElem? hoffset))
  · rw [List.getElem?_append_right (Nat.le_add_right _ _), Nat.add_sub_cancel_left] at hoffset
    match behind with
    | 0 =>
      cases hoffset
      obtain ⟨f, hf⟩ := ending
      cases hf
    | 1 => exact ⟨start + part.length, rfl, found.2.1⟩
    | behind + 2 => cases hoffset

end Assembly

end StackCompiler
