import StackCompiler.Assembly.OfProgram
import StackCompiler.Proofs.Tree.Order
import StackCompiler.Proofs.Tree.Subtree

/-!
Where the code of a node stands: its own instructions and the code of its children, one after the
other.
-/

namespace StackCompiler

namespace Assembly

/-- The part stands in the code from this position on, whatever a piece of code is. -/
def CodeAt {ω : Type} (code : List ω) (position : Nat) (part : List ω) : Prop :=
  part <+: code.drop position

section

variable {ω : Type} {code part : List ω} {position : Nat} {i : ω}

@[simp] theorem codeAt_nil : CodeAt code position [] := List.nil_prefix

@[simp] theorem codeAt_cons :
    CodeAt code position (i :: part) ↔
      code[position]? = some i ∧ CodeAt code (position + 1) part := by
  unfold CodeAt
  by_cases h : position < code.length
  · rw [List.drop_eq_getElem_cons h, List.cons_prefix_cons, List.getElem?_eq_getElem h]
    simp [eq_comm]
  · rw [List.drop_eq_nil_of_le (by omega), List.getElem?_eq_none (by omega)]
    simp

@[simp] theorem codeAt_append {part' : List ω} : CodeAt code position (part ++ part') ↔
    CodeAt code position part ∧ CodeAt code (position + part.length) part' := by
  induction part generalizing position with
  | nil => simp
  | cons i part ih =>
    rw [List.cons_append, codeAt_cons, codeAt_cons, ih, List.length_cons, and_assoc,
      Nat.add_assoc, Nat.add_comm 1]

theorem codeAt_flatMap {α : Type} {code : α → List ω} (before : List α) (a : α) (after : List α) :
    CodeAt ((before ++ a :: after).flatMap code) (before.flatMap code).length (code a) := by
  unfold CodeAt
  rw [List.flatMap_append, List.drop_left, List.flatMap_cons]
  exact List.prefix_append _ _

theorem CodeAt.getElem? {offset : Nat} (h : CodeAt code position part)
    (ho : offset < part.length) : code[position + offset]? = part[offset]? := by
  obtain ⟨rest, hr⟩ := h
  rw [← List.getElem?_drop, ← hr, List.getElem?_append_left ho]

/-- The code of a part stands behind the code of those before it. -/
theorem codeAt_of_getElem? {α : Type} {code : α → List ω} {as : List α} {index : Nat} {a : α}
    (h : as[index]? = some a) :
    CodeAt (as.flatMap code) ((as.take index).flatMap code).length (code a) := by
  obtain ⟨hlt, rfl⟩ := List.getElem?_eq_some_iff.mp h
  have found : CodeAt _ ((as.take index).flatMap code).length (code as[index]) :=
    codeAt_flatMap (as.take index) as[index] (as.drop (index + 1))
  rwa [← List.drop_eq_getElem_cons, List.take_append_drop] at found

/-- Every position lies in the code of one of the parts, behind the code of those before it. -/
theorem exists_part_of_getElem? {α : Type} {code : α → List ω} {as : List α}
    (h : (as.flatMap code)[position]? = some i) : ∃ index a offset, as[index]? = some a ∧
      position = ((as.take index).flatMap code).length + offset ∧ (code a)[offset]? = some i := by
  induction as generalizing position with
  | nil => cases h
  | cons a as ih =>
    by_cases here : position < (code a).length
    · rw [List.flatMap_cons, List.getElem?_append_left here] at h
      exact ⟨0, a, position, rfl, by simp, h⟩
    · rw [List.flatMap_cons, List.getElem?_append_right (Nat.not_lt.mp here)] at h
      obtain ⟨index, b, offset, hb, hp, hi⟩ := ih h
      refine ⟨index + 1, b, offset, hb, ?_, hi⟩
      rw [List.take_succ_cons, List.flatMap_cons, List.length_append]
      omega

theorem exists_codeAt_of_getElem? {α : Type} {code : α → List ω} {as : List α}
    (h : (as.flatMap code)[position]? = some i) : ∃ a ∈ as, ∃ start offset,
      CodeAt (as.flatMap code) start (code a) ∧ position = start + offset ∧
        (code a)[offset]? = some i := by
  obtain ⟨index, a, offset, ha, hp, hi⟩ := exists_part_of_getElem? h
  exact ⟨a, List.mem_of_getElem? ha, _, offset, codeAt_of_getElem? ha, hp, hi⟩

end

/-- What the step of an evaluation becomes. -/
def stepCode : Step Leaf → Code
  | .operand l => lowering.leaf l
  | .apply op => [operatorInstruction op]

theorem expression_eq (e : Expression) : lowering.expression e = e.order.flatMap stepCode := by
  rw [Lowering.expression_eq]
  congr 1
  funext step
  cases step <;> rfl

theorem callCode_eq (c : Call) : lowering.callCode c =
    .comment s!"call {c.name} with {c.args.length} args" :: c.args.flatMap lowering.expression ++
      [callInstruction c.name c.args.length] := by
  rw [Lowering.callCode_eq]
  rfl

theorem statements_eq (ss : List Statement) : statements ss = ss.flatMap statement := by
  induction ss with
  | nil => rfl
  | cons s ss ih => rw [statements, List.flatMap_cons, ih]

theorem block_eq (b : Block) : block b = b.statements.flatMap statement := by
  obtain ⟨id, ss⟩ := b
  exact statements_eq ss

theorem body_eq (b : Option Block) : body b = b.toList.flatMap block := by
  cases b <;> simp [body]

theorem value_eq (e : Option Expression) :
    lowering.value e = e.toList.flatMap lowering.expression := by
  cases e <;> simp [Lowering.value]

theorem switchCases_eq (scrutinee : Option Expression) (exit : Label) (cases : List SwitchCase) :
    switchCases scrutinee exit cases = cases.flatMap (switchCase scrutinee exit) := by
  induction cases with
  | nil => rfl
  | cons c cases ih => rw [switchCases, List.flatMap_cons, ih]

def amountCode : Option Expression → Code
  | some e => lowering.expression e
  | none => [.mov .push (.literal "1")]

theorem increment_eq (var : String) (step : Option Expression) :
    increment var step = amountCode step ++ [.binary .add (.slot var) .pop (.slot var)] := by
  cases step <;> rfl

theorem conditional_eq (c : Conditional) : conditional c =
    .comment "if" :: lowering.value c.condition ++ [.jumpFalse c.elseLabel .pop] ++
      body c.thenBlock ++ [.jump c.exitLabel, .label c.elseLabel] ++
      body c.elseBlock ++ [.label c.exitLabel] := by
  obtain ⟨id, condition, thenBlock, elseBlock⟩ := c
  rfl

theorem loop_eq (l : Loop) : loop l =
    .comment s!"for {l.var}" :: lowering.value l.start ++
      [store l.var, .label l.conditionLabel, .mov .push (.slot l.var)] ++
      lowering.value l.stop ++ [stackBinary .lessEq, .jumpFalse l.exitLabel .pop] ++
      body l.body ++ increment l.var l.increment ++
      [.jump l.conditionLabel, .label l.exitLabel] := by
  obtain ⟨id, var, start, stop, step, inner⟩ := l
  rfl

theorem switch_eq (s : Switch) : switch s =
    .comment "switch" :: s.cases.flatMap (switchCase s.scrutinee s.exitLabel) ++
      body s.fallback ++ [.label s.exitLabel] := by
  obtain ⟨id, scrutinee, cases, fallback, fallbackSeen⟩ := s
  rw [switch, switchCases_eq]

theorem switchCase_eq (scrutinee : Option Expression) (exit : Label) (c : SwitchCase) :
    switchCase scrutinee exit c =
      caseTest scrutinee c.values ++ [.jumpFalse c.skipLabel .pop] ++ body c.body ++
        [.jump exit, .label c.skipLabel] := by
  obtain ⟨id, values, inner⟩ := c
  rfl

end Assembly

open Assembly in
/-- The code of a case depends on the switch around it, that of all other nodes on the node alone. -/
def Node.code (scrutinee : Option Expression) (exit : Label) : Node → Code
  | program p => ofProgram p
  | function f => Assembly.function f
  | block b => Assembly.block b
  | assignment a => statement (.assignment a)
  | ret r => statement (.ret r)
  | switchExit e => statement (.switchExit e)
  | loopExit e => statement (.loopExit e)
  | loop l => Assembly.loop l
  | conditional c => Assembly.conditional c
  | switch s => Assembly.switch s
  | switchCase c => Assembly.switchCase scrutinee exit c
  | expression e => lowering.expression e
  | identifier _ => []
  | call c => lowering.callCode c

theorem Assembly.statement_eq (scrutinee : Option Expression) (exit : Label) (s : Statement) :
    statement s = s.node.code scrutinee exit := by
  cases s <;> rfl

end StackCompiler
