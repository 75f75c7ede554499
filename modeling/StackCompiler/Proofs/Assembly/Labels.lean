import StackCompiler.Proofs.Assembly.Layout
import StackCompiler.Proofs.Construction.Identity

/-!
Where a label is defined. The labels of a node tell its number, and a number belongs to one node
only, so that a jump finds the place that the node means.
-/

namespace StackCompiler

namespace Label

theorem forNode_id_eq {purpose purpose' : String} {kind kind' : NodeKind} {i j : Nat}
    (h : forNode purpose kind (some i) = forNode purpose' kind' (some j)) : i = j := by
  have digits (front : List Char) (k : Nat) :
      (front ++ '_' :: Nat.toDigits 10 k).reverse.takeWhile (· != '_') =
        (Nat.toDigits 10 k).reverse := by
    rw [List.reverse_append, List.reverse_cons, List.append_assoc, List.takeWhile_append_of_pos]
    · simp
    · intro c hc
      have := Nat.underscore_not_in_toDigits (n := k)
      simp only [bne_iff_ne, ne_eq]
      rintro rfl
      exact this (List.mem_reverse.mp hc)
  have names := congrArg (fun l => l.name.toList) h
  simp only [forNode, String.toList_append, Nat.toString_eq_ofList_toDigits, String.toList_ofList]
    at names
  have ends := congrArg (fun cs => cs.reverse.takeWhile (· != '_')) names
  have under : "_".toList = ['_'] := rfl
  simp only [under, List.cons_append, List.nil_append] at ends
  rw [digits, digits, List.reverse_inj] at ends
  have values := congrArg (fun ds => Nat.ofDigitChars 10 ds 0) ends
  simpa [Nat.ofDigitChars_toDigits] using values

/-- The purpose of a node's label starts with another letter. -/
theorem forNode_ne_forFunction {purpose : String} (h : purpose.toList.head? ≠ some 'F')
    (hne : purpose ≠ "") (kind : NodeKind) (node : Option Nat) (name : String) :
    forNode purpose kind node ≠ forFunction name := by
  intro heq
  have names := congrArg (fun l => l.name.toList.head?) heq
  simp only [forNode, forFunction, String.toList_append, List.append_assoc] at names
  cases hp : purpose.toList with
  | nil => exact hne (String.toList_eq_nil_iff.mp hp)
  | cons c cs =>
    simp [hp] at names h
    exact h names

end Label

/-- Labels that the code of the node itself defines. -/
def Node.ownLabels : Node → List Label
  | function f => [f.label]
  | conditional c => [c.elseLabel, c.exitLabel]
  | loop l => [l.conditionLabel, l.exitLabel]
  | switch s => [s.exitLabel]
  | switchCase c => [c.skipLabel]
  | _ => []

namespace Assembly

def Instruction.label? : Instruction → Option Label
  | .label l => some l
  | _ => none

def labels (code : Code) : List Label := code.filterMap Instruction.label?

section

@[simp] theorem labels_nil : labels [] = [] := rfl

@[simp] theorem labels_cons (i : Instruction) (code : Code) :
    labels (i :: code) = i.label?.toList ++ labels code := by
  cases h : i.label? <;> simp [labels, h]

@[simp] theorem labels_append (code code' : Code) :
    labels (code ++ code') = labels code ++ labels code' := List.filterMap_append

@[simp] theorem labels_flatMap {α : Type} (as : List α) (f : α → Code) :
    labels (as.flatMap f) = as.flatMap fun a => labels (f a) := List.filterMap_flatMap

theorem label?_operatorInstruction (op : Operator) : (operatorInstruction op).label? = none := by
  unfold operatorInstruction
  split <;> split <;> rfl

theorem label?_callInstruction (name : String) (count : Nat) :
    (callInstruction name count).label? = none := by
  unfold callInstruction
  split <;> rfl

end

end Assembly

namespace Node

open Assembly in
theorem labels_leaf {e : Expression} {l : Leaf} (hl : .leaf l ∈ e.tokens)
    (h : ∀ c, .call c ∈ (expression e).children → labels (lowering.callCode c) = []) :
    labels (lowering.leaf l) = [] := by
  cases l with
  | identifier i => rfl
  | constant k => rfl
  | call c => exact h c (List.mem_filterMap.mpr ⟨_, hl, rfl⟩)

open Assembly in
/-- Values are computed without jumps. -/
theorem labels_operand (n : Node) (h : n.isOperand) (scrutinee : Option Expression) (exit : Label) :
    labels (n.code scrutinee exit) = [] := by
  induction n using Node.induction with
  | step n ih =>
    replace ih (c : Node) (hc : c ∈ n.children) := ih c hc (isOperand_children h hc)
    cases n with
    | expression e =>
      rw [code, expression_eq, labels_flatMap, List.flatMap_eq_nil_iff]
      intro step hs
      cases step with
      | operand l =>
        exact labels_leaf (operand_mem_orderFrom.mp hs) fun c hc => ih _ hc
      | apply op => simp [stepCode, label?_operatorInstruction]
    | call c =>
      have comment (text : String) : (Instruction.comment text).label? = none := rfl
      rw [code, callCode_eq]
      simp only [labels_cons, labels_append, labels_flatMap, label?_callInstruction, labels_nil,
        Option.toList_none, List.append_nil, comment, List.nil_append, List.flatMap_eq_nil_iff]
      intro e he
      exact ih (.expression e) (List.mem_map.mpr ⟨e, he, rfl⟩)
    | identifier i => rfl
    | _ => cases h

theorem ownLabels_operand {n : Node} (h : n.isOperand) : n.ownLabels = [] := by
  cases n <;> first | rfl | cases h

open Assembly

theorem labels_expression (e : Expression) : labels (lowering.expression e) = [] :=
  labels_operand (expression e) rfl none (.forFunction "")

theorem labels_call (c : Call) : labels (lowering.callCode c) = [] :=
  labels_operand (call c) rfl none (.forFunction "")

theorem labels_value (e : Option Expression) : labels (lowering.value e) = [] := by
  cases e with
  | none => rfl
  | some e => exact labels_expression e

theorem labels_caseTest (scrutinee : Option Expression) (values : List Expression) :
    labels (caseTest scrutinee values) = [] := by
  have binary (op : BinaryOp) : (stackBinary op).label? = none := rfl
  have ors (k : Nat) : labels (List.replicate k (stackBinary .or)) = [] := by
    induction k with
    | zero => rfl
    | succ k ih => rw [List.replicate_succ, labels_cons, ih, binary]; rfl
  simp [caseTest, labels_value, labels_expression, ors, binary]

theorem labels_increment (var : String) (step : Option Expression) :
    labels (increment var step) = [] := by
  cases step <;> simp [increment, labels_expression, Instruction.label?]

theorem collect_expressions (es : List Expression) :
    (es.map expression).flatMap (collect ownLabels) = [] := by
  simp [List.flatMap_eq_nil_iff, collect_operand ownLabels_operand (n := expression _) rfl]

theorem count_flatMap_congr {α β : Type} [BEq β] {as : List α} {f g : α → List β} {b : β}
    (h : ∀ a ∈ as, (f a).count b = (g a).count b) :
    (as.flatMap f).count b = (as.flatMap g).count b := by
  rw [List.count_flatMap, List.count_flatMap]
  congr 1
  exact List.map_congr_left h

theorem labels_function (f : Function) :
    labels (Assembly.function f) = f.label :: labels (body f.body) := by
  have stores (xs : List String) : labels (xs.map store) = [] := by
    induction xs with
    | nil => rfl
    | cons x xs ih => rw [List.map_cons, labels_cons, ih]; rfl
  simp only [Assembly.function, labels_append, stores, labels_cons, labels_nil, Instruction.label?]
  simp

theorem labels_conditional (c : Conditional) : labels (Assembly.conditional c) =
    labels (body c.thenBlock) ++ c.elseLabel :: labels (body c.elseBlock) ++ [c.exitLabel] := by
  simp [conditional_eq, labels_value, Instruction.label?]

theorem labels_loop (l : Loop) : labels (Assembly.loop l) =
    l.conditionLabel :: labels (body l.body) ++ [l.exitLabel] := by
  simp [loop_eq, labels_value, labels_increment, Instruction.label?, store, stackBinary]

theorem labels_switch (s : Switch) : labels (Assembly.switch s) =
    (s.cases.flatMap fun c => labels (Assembly.switchCase s.scrutinee s.exitLabel c)) ++
      labels (body s.fallback) ++ [s.exitLabel] := by
  simp [switch_eq, Instruction.label?]

theorem labels_switchCase (scrutinee : Option Expression) (exit : Label) (c : SwitchCase) :
    labels (Assembly.switchCase scrutinee exit c) = labels (body c.body) ++ [c.skipLabel] := by
  simp [switchCase_eq, labels_caseTest, Instruction.label?]

/-- Every label is defined where its node stands, and nowhere else. -/
theorem count_labels (n : Node) (scrutinee : Option Expression) (exit l : Label) :
    (labels (n.code scrutinee exit)).count l = (n.collect ownLabels).count l := by
  induction n using Node.induction generalizing scrutinee exit with
  | step n ih =>
    have inBody {b : Option Block} (hb : ∀ b' ∈ b.toList, block b' ∈ n.children) :
        (labels (body b)).count l = ((b.toList.map block).flatMap (collect ownLabels)).count l := by
      rw [body_eq, labels_flatMap, List.flatMap_map]
      exact count_flatMap_congr fun b' hb' => ih (.block b') (hb b' hb') none exit
    rw [collect_eq, List.count_append]
    cases n with
    | program p =>
      simp only [code, ofProgram, labels_flatMap, ownLabels, children, List.flatMap_map,
        List.count_nil, Nat.zero_add]
      exact count_flatMap_congr fun f hf => ih (.function f) (List.mem_map.mpr ⟨f, hf, rfl⟩) none exit
    | function f =>
      have inner : (labels (body f.body)).count l = _ :=
        inBody fun b hb => List.mem_map.mpr ⟨b, hb, rfl⟩
      simp only [code, labels_function, ownLabels, children, List.count_cons, List.count_nil, inner]
      omega
    | block b =>
      simp only [code, block_eq, labels_flatMap, ownLabels, children, List.flatMap_map,
        List.count_nil, Nat.zero_add]
      refine count_flatMap_congr fun s hs => ?_
      rw [statement_eq none exit]
      exact ih s.node (List.mem_map.mpr ⟨s, hs, rfl⟩) none exit
    | assignment a =>
      simp [code, statement, labels_value, store, Instruction.label?, ownLabels, children,
        collect_expressions]
    | ret r =>
      simp [code, statement, labels_value, Instruction.label?, ownLabels, children,
        collect_expressions]
    | switchExit e | loopExit e =>
      simp [code, statement, Instruction.label?, ownLabels, children]
    | loop w =>
      have inner : (labels (body w.body)).count l = _ :=
        inBody fun b hb => List.mem_append_right _ (List.mem_map.mpr ⟨b, hb, rfl⟩)
      simp only [code, labels_loop, ownLabels, children, List.flatMap_append, collect_expressions,
        List.count_append, List.count_cons, List.count_nil, inner]
      omega
    | conditional c =>
      have first : (labels (body c.thenBlock)).count l = _ :=
        inBody fun b hb => List.mem_append_right _ (List.mem_map.mpr ⟨b, by simp [hb], rfl⟩)
      have second : (labels (body c.elseBlock)).count l = _ :=
        inBody fun b hb => List.mem_append_right _ (List.mem_map.mpr ⟨b, by simp [hb], rfl⟩)
      simp only [code, labels_conditional, ownLabels, children, List.map_append,
        List.flatMap_append, collect_expressions, List.count_append, List.count_cons,
        List.count_nil, first, second]
      omega
    | switch s =>
      have inner : (labels (body s.fallback)).count l = _ :=
        inBody fun b hb => List.mem_append_right _ (List.mem_map.mpr ⟨b, hb, rfl⟩)
      have cases : (s.cases.flatMap fun c =>
          labels (Assembly.switchCase s.scrutinee s.exitLabel c)).count l =
            ((s.cases.map switchCase).flatMap (collect ownLabels)).count l := by
        rw [List.flatMap_map]
        refine count_flatMap_congr fun c hc => ih (.switchCase c) ?_ s.scrutinee s.exitLabel
        exact List.mem_append_left _ (List.mem_append_right _ (List.mem_map.mpr ⟨c, hc, rfl⟩))
      simp only [code, labels_switch, ownLabels, children, List.flatMap_append, collect_expressions,
        List.count_append, List.count_cons, List.count_nil, inner, cases]
      omega
    | switchCase c =>
      have inner : (labels (body c.body)).count l = _ :=
        inBody fun b hb => List.mem_append_right _ (List.mem_map.mpr ⟨b, hb, rfl⟩)
      simp only [code, labels_switchCase, ownLabels, children, List.flatMap_append,
        collect_expressions, List.count_append, List.count_cons, List.count_nil, inner]
      omega
    | expression e =>
      have none_below : (expression e).children.flatMap (collect ownLabels) = [] :=
        List.flatMap_eq_nil_iff.mpr fun c hc =>
          collect_operand ownLabels_operand (isOperand_children rfl hc)
      simp [code, labels_expression, ownLabels, none_below]
    | identifier i => rfl
    | call c => simp [code, labels_call, ownLabels, children, collect_expressions]

end Node

end StackCompiler
