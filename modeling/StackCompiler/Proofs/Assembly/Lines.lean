import StackCompiler.Proofs.Assembly.Printing
import StackCompiler.Proofs.Assembly.Sources
import StackCompiler.Proofs.Construction.Texts
import StackCompiler.Proofs.Decimal.Numeral

/-!
What stands on the lines of the code of a program: literals that are known as literals, and no line
feed unless a text of the tree has one.
-/

namespace StackCompiler

namespace Assembly

/-- Constants that are not quoted are numbers, of which some are not a number. -/
theorem decodeConstant_cases (literal : String) :
    decodeConstant literal = literal ∧ startsQuoted literal ∨
      decodeConstant literal = "NaN" ∨ ∃ x, decodeConstant literal = Decimal.plain.write x := by
  unfold decodeConstant
  split
  · next h => exact .inl ⟨rfl, by rw [startsQuoted, h]; rfl⟩
  · next h => exact .inl ⟨rfl, by rw [startsQuoted, h]; rfl⟩
  · right
    dsimp only
    split
    · exact .inr ⟨_, rfl⟩
    · exact .inl rfl

theorem literate_decodeConstant (literal : String) :
    (Operand.literal (decodeConstant literal)).Literate := by
  unfold Operand.Literate
  obtain ⟨text, quoted⟩ | text | ⟨x, text⟩ := decodeConstant_cases literal
  · exact .inl (text.symm ▸ quoted)
  · exact .inr (text.symm ▸ rfl)
  · exact .inr (text.symm ▸ Decimal.isSome_read?_write x)

theorem newline_not_mem_toDigits (n : Nat) : '\n' ∉ Nat.toDigits 10 n := by
  intro h
  have digit := Nat.isDigit_of_mem_toDigits (by decide) (by decide) h
  cases digit

theorem newline_not_mem_decodeConstant {literal : String} (h : '\n' ∉ literal.toList) :
    '\n' ∉ (decodeConstant literal).toList := by
  obtain ⟨text, -⟩ | text | ⟨x, text⟩ := decodeConstant_cases literal
  · rwa [text]
  · rw [text]
    decide
  · rw [text]
    exact Decimal.newline_not_mem_write x

theorem newline_not_mem_forNode {purpose : String} (h : '\n' ∉ purpose.toList) (kind : NodeKind)
    (node : Option Nat) : '\n' ∉ (Label.forNode purpose kind node).text.toList := by
  have kindName : '\n' ∉ kind.name.toList := by cases kind <;> decide
  cases node <;>
    simp [Label.text, Label.forNode, h, kindName, newline_not_mem_toDigits]

/-- All literals of the instruction are known as such, and no text of it has a line feed. -/
def Instruction.Printable (i : Instruction) : Prop :=
  (∀ o ∈ i.operands, o.Literate) ∧ ∀ w ∈ i.words, '\n' ∉ w.toList

section

open Instruction

variable {text : String} {l : Label}

@[simp] theorem printable_comment : (comment text).Printable ↔ '\n' ∉ text.toList := by
  simp [Printable, operands, words]

@[simp] theorem printable_label : (label l).Printable ↔ '\n' ∉ l.text.toList := by
  simp [Printable, operands, words]

@[simp] theorem printable_jump : (jump l).Printable ↔ '\n' ∉ l.text.toList := by
  simp [Printable, operands, words]

@[simp] theorem printable_call : (call l).Printable ↔ '\n' ∉ l.text.toList := by
  simp [Printable, operands, words]

@[simp] theorem printable_jumpFalse :
    (jumpFalse l .pop).Printable ↔ '\n' ∉ l.text.toList := by
  simp [Printable, operands, words, Operand.Literate, Operand.text]

@[simp] theorem printable_out : out.Printable := by
  simp [Printable, operands, words]

@[simp] theorem printable_store : (store text).Printable ↔ '\n' ∉ text.toList := by
  simp [Printable, store, operands, words, Operand.Literate, Operand.text, Target.text]

@[simp] theorem printable_identifier :
    (lowering.identifier text).Printable ↔ '\n' ∉ text.toList := by
  simp [Printable, lowering, operands, words, Operand.Literate, Operand.text, Target.text]

@[simp] theorem printable_constant :
    (lowering.constant text).Printable ↔ '\n' ∉ (decodeConstant text).toList := by
  simp [Printable, lowering, operands, words, literate_decodeConstant, Operand.text, Target.text]

@[simp] theorem printable_one : (mov .push (.literal "1")).Printable := by
  refine ⟨fun o ho => ?_, by decide⟩
  rw [List.mem_singleton.mp ho]
  exact .inr rfl

@[simp] theorem printable_increment :
    (binary .add (.slot text) .pop (.slot text)).Printable ↔ '\n' ∉ text.toList := by
  simp [Printable, operands, words, Operand.Literate, Operand.text, Target.text,
    BinaryOp.mnemonic]

@[simp] theorem printable_stackUnary (op : UnaryOp) : (stackUnary op).Printable := by
  cases op <;> simp [Printable, stackUnary, operands, words, Operand.Literate, Operand.text,
    Target.text, UnaryOp.mnemonic]

@[simp] theorem printable_stackBinary (op : BinaryOp) : (stackBinary op).Printable := by
  cases op <;> simp [Printable, stackBinary, operands, words, Operand.Literate, Operand.text,
    Target.text, BinaryOp.mnemonic]

theorem printable_operatorInstruction (op : Operator) : (operatorInstruction op).Printable := by
  have unknown (arity : Nat) : (unknown arity).Printable := by
    refine ⟨by simp [operands], fun w hw => ?_⟩
    simp only [words, List.cons_append, List.mem_cons, List.mem_append, List.mem_replicate,
      List.not_mem_nil, or_false] at hw
    obtain rfl | ⟨-, rfl⟩ | rfl := hw <;> decide
  unfold operatorInstruction
  split <;> split <;> simp [unknown]

theorem printable_callInstruction (h : '\n' ∉ text.toList) (count : Nat) :
    (callInstruction text count).Printable := by
  unfold callInstruction
  split
  · simp [Printable, operands, words]
  · simp [Printable, operands, words]
  · simp [Label.text, Label.forFunction, h]

end

theorem printable_instructions {n : Node} (h : ∀ text ∈ n.texts, '\n' ∉ text.toList) :
    ∀ i ∈ n.instructions, i.Printable := by
  have label := @newline_not_mem_forNode
  cases n with
  | expression e =>
    rw [Node.instructions, List.forall_mem_filterMap]
    intro step hs i hi
    cases step with
    | apply op =>
      cases hi
      exact printable_operatorInstruction op
    | operand l =>
      cases l <;> cases hi
      next k =>
        have token := operand_mem_orderFrom.mp hs
        have text := h k.literal (List.mem_filterMap.mpr ⟨_, token, rfl⟩)
        exact printable_constant.mpr (newline_not_mem_decodeConstant text)
  | function f =>
    simp only [Node.texts, List.forall_mem_cons] at h
    obtain ⟨name, params⟩ := h
    have list : '\n' ∉ [',', ' '].intercalate (f.params.map String.toList) :=
      not_mem_intercalate (by decide) (by simpa using params)
    have heading : '\n' ∉ f.heading.toList := by
      simp [Function.heading, name, String.toList_intercalate, list]
    simp [Node.instructions, heading, Function.ending, Function.label, Label.forFunction,
      Label.text, name]
    exact params
  | assignment a => simpa [Node.instructions, Node.texts] using h
  | ret r => simp [Node.instructions]
  | switchExit e => simp [Node.instructions, SwitchExit.targetLabel, label]
  | loopExit e => simp [Node.instructions, LoopExit.targetLabel, label]
  | loop l =>
    have var : '\n' ∉ l.var.toList := h l.var (by simp [Node.texts])
    have load : (Instruction.mov .push (.slot l.var)).Printable := printable_identifier.mpr var
    simp [Node.instructions, Loop.conditionLabel, Loop.exitLabel, label, var, load, toString]
  | conditional c => simp [Node.instructions, Conditional.elseLabel, Conditional.exitLabel, label]
  | switch s => simp [Node.instructions, Switch.exitLabel, label]
  | switchCase c => simp [Node.instructions, SwitchCase.skipLabel, label]
  | identifier i => simpa [Node.instructions, Node.texts] using h
  | call c =>
    have name : '\n' ∉ c.name.toList := h c.name (by simp [Node.texts])
    simp [Node.instructions, printable_callInstruction name, toString, name,
      newline_not_mem_toDigits]
  | program p | block b => simp [Node.instructions]

theorem printable_ofProgram {p : Program}
    (h : (Node.program p).Every fun m => ∀ text ∈ m.texts, '\n' ∉ text.toList) :
    ∀ i ∈ ofProgram p, i.Printable :=
  forall_mem_ofProgram fun m hm => printable_instructions (h m hm)

/-- The text of a program's code, none of whose texts has a line feed, is read as the code without
its comments. -/
theorem ofText_text_ofProgram {p : Program}
    (h : (Node.program p).Every fun m => ∀ text ∈ m.texts, '\n' ∉ text.toList)
    (hw : ∀ i ∈ ofProgram p, i.Worded) :
    Code.ofText (Code.text (ofProgram p)) = .ok (Code.bare (ofProgram p)) := by
  have printable := printable_ofProgram h
  exact Code.ofText_text (fun i hi => Instruction.newline_not_mem_text (printable i hi).2) hw
    fun i hi => (printable i hi).1

end Assembly

end StackCompiler
