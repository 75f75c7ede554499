import StackCompiler.Proofs.Assembly.Linking
import StackCompiler.Proofs.Script.Built

/-!
Numbers and labels are given once. Only functions of one name share a label, which is no label of a
node whatever that name is.
-/

namespace StackCompiler

open Assembly

/-- Where the label of the function stands that so many functions come before. -/
def Program.labelPosition (p : Program) (index : Nat) : Nat :=
  (ofProgram ⟨p.id, p.functions.take index⟩).length + 1

/-- One label stands at both positions, and it is that of two functions of one name. -/
def Program.Namesakes (p : Program) (i j : Nat) (l : Label) : Prop :=
  ∃ a b f g, a ≠ b ∧ p.functions[a]? = some f ∧ p.functions[b]? = some g ∧ f.name = g.name ∧
    l = f.label ∧ i = p.labelPosition a ∧ j = p.labelPosition b

namespace Assembly

variable {p : Program} {name : String} {i j : Nat}

/-- The label of a function stands at one place of its code, behind the heading. -/
theorem position_of_forFunction {f : Function} {offset : Nat}
    (h : (function f)[offset]? = some (.label (.forFunction name))) :
    name = f.name ∧ offset = 1 := by
  have same : name = f.name :=
    eq_of_forFunction_mem (List.mem_filterMap.mpr ⟨_, List.mem_of_getElem? h, rfl⟩)
  have once : (labels (function f)).count (.forFunction name) ≤ 1 := by
    rw [Node.labels_function, List.count_cons,
      List.count_eq_zero_of_not_mem (forFunction_not_mem_labels_body f.body name)]
    split <;> omega
  have start : (function f)[1]? = some (.label (.forFunction name)) := by
    rw [same]
    rfl
  have found := labelPosition?_of_count h once
  rw [labelPosition?_of_count start once, Option.some.injEq] at found
  exact ⟨same, found.symm⟩

theorem exists_function_of_forFunction
    (h : (ofProgram p)[i]? = some (.label (.forFunction name))) :
    ∃ a f, p.functions[a]? = some f ∧ name = f.name ∧ i = p.labelPosition a := by
  obtain ⟨a, f, offset, hf, hi, hoffset⟩ := exists_part_of_getElem? h
  obtain ⟨same, rfl⟩ := position_of_forFunction hoffset
  exact ⟨a, f, hf, same, hi⟩

theorem namesakes_of_label (linked : Linked p (ofProgram p)) {l : Label} (hne : i ≠ j)
    (hi : (ofProgram p)[i]? = some (.label l)) (hj : (ofProgram p)[j]? = some (.label l)) :
    p.Namesakes i j l := by
  by_cases inner : l.IsLocal
  · have same := (linked.node hi inner).symm.trans (linked.node hj inner)
    exact absurd (Option.some.inj same) hne
  · obtain ⟨name, rfl⟩ : ∃ name, l = .forFunction name := by simpa [Label.IsLocal] using inner
    obtain ⟨a, f, hf, nameF, rfl⟩ := exists_function_of_forFunction hi
    obtain ⟨b, g, hg, nameG, rfl⟩ := exists_function_of_forFunction hj
    refine ⟨a, b, f, g, ?_, hf, hg, nameF.symm.trans nameG, by rw [nameF]; rfl, rfl, rfl⟩
    rintro rfl
    exact hne rfl

/-- Not even a name with the purpose of a label in it makes the two equal. -/
theorem text_forFunction_ne {purpose : String} (h : purpose ∈ ["Else", "Exit", "Condition", "Skip"])
    (kind : NodeKind) (node : Option Nat) (name : String) :
    (Label.forFunction name).text ≠ (Label.forNode purpose kind node).text := by
  have start : purpose.toList.head? ≠ some 'F' ∧ purpose ≠ "" := by
    simp only [List.mem_cons, List.not_mem_nil, or_false] at h
    rcases h with rfl | rfl | rfl | rfl <;> decide
  intro same
  exact Label.forNode_ne_forFunction start.1 start.2 kind node name (Label.text_injective same).symm

end Assembly

namespace Script

/-- A script that replays numbers every node and every constant of its program once, and below the
number that comes next. In the code of the program a label is defined once too, that of functions
of one name apart, and no name of a function makes its label one of a node. -/
theorem ids_and_labels_unique {source : String} {built : Built} (h : replay source = .ok built) :
    (Node.program built.program).ids.Nodup ∧
      (∃ st, Replays source st built ∧
        ∀ i ∈ (Node.program built.program).ids, i < st.construction.nextId) ∧
      (∀ {i j l m}, i ≠ j → (ofProgram built.program)[i]? = some (.label l) →
        (ofProgram built.program)[j]? = some (.label m) → l.text = m.text →
          built.program.Namesakes i j l) ∧
      ∀ name, ∀ purpose ∈ ["Else", "Exit", "Condition", "Skip"], ∀ kind node,
        (Label.forFunction name).text ≠ (Label.forNode purpose kind node).text := by
  obtain ⟨st, replays⟩ := replay_eq_ok h
  refine ⟨replays.numbered.1, ⟨st, replays, replays.numbered.2⟩, ?_, ?_⟩
  · intro i j l m hne hi hj same
    rw [← Label.text_injective same] at hj
    exact namesakes_of_label (linked_ofProgram replays.numbered.1) hne hi hj
  · intro name purpose hp kind node
    exact text_forFunction_ne hp kind node name

theorem ids_and_labels_unique_exit : (Node.program exitProgram).ids.Nodup ∧
    exitProgram.Namesakes 1 29 (.forFunction "main") := by
  have unique := ids_and_labels_unique replay_exit
  refine ⟨unique.1, unique.2.2.1 (by decide) ?_ ?_ rfl⟩
  · decide +kernel
  · decide +kernel

end Script

end StackCompiler
