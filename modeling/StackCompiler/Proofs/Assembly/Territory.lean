import StackCompiler.Proofs.Assembly.Destinations
import StackCompiler.Proofs.Assembly.Endings

/-!
Which function a position belongs to. Control stays in the code of a function as long as it neither
calls nor returns: jumps have their labels in the same code, and if the function returns at its end,
control does not get past it.
-/

namespace StackCompiler

theorem NodeKind.isDigit_getLast?_name (kind : NodeKind) :
    ∃ c, kind.name.toList.getLast? = some c ∧ c.isDigit = false := by
  cases kind <;> exact ⟨_, rfl, rfl⟩

/-- A label that tells a number ends in a digit, and no other label of a node does. -/
theorem Label.forNode_none_ne (purpose purpose' : String) (kind kind' : NodeKind) (id : Nat) :
    forNode purpose kind none ≠ forNode purpose' kind' (some id) := by
  intro same
  obtain ⟨c, hc, notDigit⟩ := kind.isDigit_getLast?_name
  obtain ⟨d, hd⟩ := Option.ne_none_iff_exists'.mp
    (mt List.getLast?_eq_none_iff.mp (Nat.toDigits_ne_nil (n := id) (b := 10)))
  have isDigit : d.isDigit :=
    Nat.isDigit_of_mem_toDigits (by decide) (by decide) (List.mem_of_getLast? hd)
  have ends := congrArg (fun l => l.name.toList.getLast?) same
  simp only [forNode, String.toList_append, Nat.toString_eq_ofList_toDigits, String.toList_ofList,
    List.getLast?_append, hc, hd] at ends
  have one : c = d := by simpa using ends
  rw [one, isDigit] at notDigit
  cases notDigit

namespace Node

open Assembly

variable {n : Node} {l : Label}

/-- Nothing jumps to a function. -/
theorem isLocal_of_destination? {i : Instruction} (hi : i ∈ n.instructions)
    (hl : i.destination? = some l) : l.IsLocal := by
  by_cases inner : n.isInner
  · obtain own | ⟨e, -, rfl⟩ | ⟨e, -, rfl⟩ := destination_of_mem_instructions hi hl
    · exact isLocal_of_mem_ownLabels inner own
    · exact exitLabel_isLocal _ _
    · exact exitLabel_isLocal _ _
  · cases n with
    | program p => cases hi
    | function f =>
      simp only [instructions, List.mem_cons, List.mem_map] at hi
      obtain rfl | rfl | rfl | ⟨x, -, rfl⟩ := hi <;> cases hl
    | _ => exact absurd rfl inner

/-- Only functions are called. -/
theorem exists_forFunction_of_call (h : .call l ∈ n.instructions) :
    ∃ name, l = .forFunction name := by
  cases n with
  | expression e =>
    obtain ⟨step, -, hs⟩ := List.mem_filterMap.mp h
    cases step with
    | operand o => cases o <;> cases hs
    | apply op =>
      simp only [Option.some.injEq, operatorInstruction] at hs
      split at hs <;> split at hs <;> cases hs
  | call c =>
    simp only [instructions, callInstruction, List.mem_cons, List.not_mem_nil, or_false,
      reduceCtorEq, false_or] at h
    split at h <;> cases h
    exact ⟨_, rfl⟩
  | _ => simp [instructions, store, stackBinary, lowering] at h

/-- No node defines the label of an exit without a target. -/
theorem not_mem_ownLabels_of_stray {m : Node} (h : m.strayText? = some l.text) :
    l ∉ n.ownLabels := by
  obtain ⟨kind, rfl⟩ : ∃ kind, l = .forNode "Exit" kind none := by
    cases m with
    | switchExit e =>
      obtain ⟨id, _ | target⟩ := e
      · exact ⟨.switch, Label.text_injective (Option.some.inj h).symm⟩
      · cases h
    | loopExit e =>
      obtain ⟨id, _ | target⟩ := e
      · exact ⟨.loop, Label.text_injective (Option.some.inj h).symm⟩
      · cases h
    | _ => cases h
  intro own
  obtain ⟨purpose, kind', same⟩ := eq_forNode_of_mem_ownLabels own (exitLabel_isLocal kind none)
  exact Label.forNode_none_ne _ _ _ _ _ same

end Node

namespace Assembly

/-- The number of the function in whose code the position is. -/
def functionAt? : List Function → Nat → Option Nat
  | [], _ => none
  | f :: rest, position =>
    if position < (function f).length then some 0
    else (functionAt? rest (position - (function f).length)).map (· + 1)

theorem functionAt?_eq_some_iff {fs : List Function} {index position : Nat} :
    functionAt? fs position = some index ↔ ∃ f offset, fs[index]? = some f ∧
      offset < (function f).length ∧
        position = ((fs.take index).flatMap function).length + offset := by
  induction fs generalizing index position with
  | nil => simp [functionAt?]
  | cons f fs ih =>
    rw [functionAt?]
    cases index with
    | zero =>
      split
      · next here => simp [here]
      · next past => simp [past]
    | succ index =>
      have length : (((f :: fs).take (index + 1)).flatMap function).length =
          (function f).length + ((fs.take index).flatMap function).length := by
        rw [List.take_succ_cons, List.flatMap_cons, List.length_append]
      rw [length]
      split
      · next here =>
        simp only [Option.some.injEq, Nat.right_eq_add, reduceCtorEq, false_iff, not_exists]
        intro g offset ⟨_, _, hp⟩
        omega
      · next past =>
        rw [Option.map_eq_some_iff]
        simp only [Nat.add_right_cancel_iff, exists_eq_right, ih, List.getElem?_cons_succ]
        refine exists_congr fun g => exists_congr fun offset => ?_
        have : position - (function f).length =
            ((fs.take index).flatMap function).length + offset ↔
          position = (function f).length + ((fs.take index).flatMap function).length + offset := by
          omega
        rw [this]

variable {p : Program} {index position offset : Nat} {f : Function} {i : Instruction} {l : Label}

/-- Control is in the code of that function, and not at its end. -/
def Inside (p : Program) (index position : Nat) : Prop := ∃ f offset,
  p.functions[index]? = some f ∧ offset + 1 < (function f).length ∧
    position = ((p.functions.take index).flatMap function).length + offset

theorem Inside.functionAt? (h : Inside p index position) :
    Assembly.functionAt? p.functions position = some index := by
  obtain ⟨f, offset, hf, within, hp⟩ := h
  exact functionAt?_eq_some_iff.mpr ⟨f, offset, hf, Nat.lt_of_succ_lt within, hp⟩

theorem getElem?_ofProgram_of_function (hf : p.functions[index]? = some f)
    (ho : offset < (function f).length) :
    (ofProgram p)[((p.functions.take index).flatMap function).length + offset]? =
      (function f)[offset]? :=
  (codeAt_of_getElem? hf).getElem? ho

/-- Only the return is followed by the end of the function. -/
theorem Inside.next (returns : ∀ f ∈ p.functions, f.EndsInReturn) (h : Inside p index position)
    (hi : (ofProgram p)[position]? = some i) (notOut : i ≠ .out) :
    Inside p index (position + 1) := by
  obtain ⟨f, offset, hf, within, rfl⟩ := h
  rw [getElem?_ofProgram_of_function hf (Nat.lt_of_succ_lt within)] at hi
  obtain ⟨part, hpart, -⟩ := function_eq_of_endsInReturn (returns f (List.mem_of_getElem? hf))
  have length : (function f).length = part.length + 2 := by rw [hpart, List.length_append]; rfl
  have before : offset ≠ part.length := by
    rintro rfl
    rw [hpart, List.getElem?_append_right (Nat.le_refl _), Nat.sub_self] at hi
    exact notOut (Option.some.inj hi).symm
  exact ⟨f, offset + 1, hf, by omega, by omega⟩

/-- Functions end in a comment. -/
theorem inside_label (hf : p.functions[index]? = some f)
    (h : (function f)[offset]? = some (.label l)) :
    Inside p index (((p.functions.take index).flatMap function).length + offset) := by
  refine ⟨f, offset, hf, ?_, rfl⟩
  obtain ⟨within, -⟩ := List.getElem?_eq_some_iff.mp h
  have last : offset + 1 ≠ (function f).length := by
    intro atEnd
    have ending : (function f).getLast? = some (.comment f.ending) := List.getLast?_concat
    rw [List.getLast?_eq_getElem?, ← atEnd, Nat.add_sub_cancel, h] at ending
    cases ending
  omega

theorem isLocal_of_destination? (hi : i ∈ ofProgram p) (hl : i.destination? = some l) :
    l.IsLocal :=
  forall_mem_ofProgram (Q := fun i => ∀ l, i.destination? = some l → l.IsLocal)
    (fun _ _ _ hi _ hl => Node.isLocal_of_destination? hi hl) i hi l hl

theorem exists_forFunction_of_call (h : .call l ∈ ofProgram p) : ∃ name, l = .forFunction name :=
  forall_mem_ofProgram (Q := fun i => ∀ l, i = .call l → ∃ name, l = .forFunction name)
    (fun _ _ _ hi _ hl => Node.exists_forFunction_of_call (hl ▸ hi)) _ h l rfl

theorem not_mem_labels_of_stray {m : Node} (h : m.strayText? = some l.text) :
    l ∉ labels (ofProgram p) := by
  have tree := Node.count_labels (.program p) none l l
  rw [Node.code] at tree
  rw [← List.count_eq_zero, tree, List.count_eq_zero]
  intro defined
  obtain ⟨n, -, own⟩ := List.mem_flatMap.mp defined
  exact Node.not_mem_ownLabels_of_stray h own

/-- If exits aim at what is around them, a jump that finds its label finds it in its function. -/
theorem Inside.jump (linked : Linked p (ofProgram p))
    (follows : (Node.program p).Follows Scope.Aims {}) (h : Inside p index position)
    (hi : (ofProgram p)[position]? = some i) (hl : i.destination? = some l) {destination : Nat}
    (found : Machine.labelPosition? (ofProgram p) l = some destination) :
    Inside p index destination := by
  have defined : l ∈ labels (ofProgram p) := List.mem_filterMap.mpr
    ⟨_, List.mem_of_getElem? (Machine.getElem?_of_labelPosition? found), rfl⟩
  have inner := isLocal_of_destination? (List.mem_of_getElem? hi) hl
  obtain ⟨f, offset, hf, within, rfl⟩ := h
  rw [getElem?_ofProgram_of_function hf (Nat.lt_of_succ_lt within)] at hi
  have aims := follows.inside _ (List.mem_map_of_mem (List.mem_of_getElem? hf))
  obtain own | ⟨m, -, stray⟩ := destination_mem_labels aims (List.mem_of_getElem? hi) hl
  · obtain ⟨j, hj, label⟩ := List.mem_filterMap.mp own
    obtain ⟨target, there⟩ := List.mem_iff_getElem?.mp hj
    obtain rfl : j = .label l := by
      cases j <;> cases label
      rfl
    have inside := inside_label hf there
    have position := getElem?_ofProgram_of_function hf (List.getElem?_eq_some_iff.mp there).1
    rw [there] at position
    rw [linked.node position inner, Option.some.injEq] at found
    exact found ▸ inside
  · exact absurd defined (not_mem_labels_of_stray stray)

/-- A call goes to the first function of its name. -/
theorem inside_callee (linked : Linked p (ofProgram p)) {name : String}
    (found : Machine.labelPosition? (ofProgram p) (.forFunction name) = some position) :
    ∃ index, p.functions.findIdx? (·.name == name) = some index ∧ Inside p index position := by
  cases hf : p.function? name with
  | none =>
    rw [linked.missing hf] at found
    cases found
  | some f =>
    obtain ⟨before, after, split, first, label⟩ := labelPosition?_forFunction hf
    have named := (Program.function?_eq_some hf).1
    have here : p.functions[before.length]? = some f := by
      rw [split, List.getElem?_append_right (Nat.le_refl _), Nat.sub_self]
      rfl
    have index : p.functions.findIdx? (·.name == name) = some before.length := by
      have none : before.findIdx? (·.name == name) = none :=
        List.findIdx?_eq_none_iff.mpr fun g hg => by simpa using first g hg
      rw [split, List.findIdx?_append, none, List.findIdx?_cons]
      simp [named]
    have behind : position = ((p.functions.take before.length).flatMap function).length + 1 := by
      rw [split, List.take_left]
      exact Option.some.inj (found.symm.trans label)
    have inside : Inside p before.length (_ + 1) := inside_label here (l := f.label) rfl
    exact ⟨before.length, index, behind ▸ inside⟩

end Assembly

end StackCompiler
