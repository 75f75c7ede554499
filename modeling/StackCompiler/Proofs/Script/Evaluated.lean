import Mathlib.Data.List.Infix
import StackCompiler.Proofs.Assembly.Layout
import StackCompiler.Proofs.Script.Built
import StackCompiler.Proofs.Tree.Conservation

/-!
Which nodes of a tree are evaluated: all but those that a switch compares with nothing. Their code
is a part of the code of the tree.
-/

namespace StackCompiler

namespace Node

/-- Children whose code is in that of the node. A switch evaluates its scrutinee anew for each value
that it compares it with, and so not at all if it has no cases. -/
def evaluated : Node → List Node
  | switch s =>
    (if s.cases.isEmpty then [] else s.scrutinee.toList.map expression) ++
      s.cases.map switchCase ++ s.fallback.toList.map block
  | n => n.children

/-- The node and what is evaluated below it. -/
inductive Evaluates : Node → Node → Prop where
  | self (n : Node) : n.Evaluates n
  | inner {n c m : Node} (hc : c ∈ n.evaluated) (hm : c.Evaluates m) : n.Evaluates m

theorem evaluated_subset {n c : Node} (h : c ∈ n.evaluated) : c ∈ n.children := by
  cases n with
  | switch s =>
    by_cases empty : s.cases = []
    · simp only [evaluated, empty, List.isEmpty_nil, if_true, List.nil_append, List.map_nil] at h
      exact List.mem_append_right _ h
    · simpa [evaluated, children, empty] using h
  | _ => exact h

end Node

namespace Assembly

section

variable {part code rest : Code}

theorem part_left (h : part <:+: code) : part <:+: code ++ rest :=
  h.trans (List.prefix_append code rest).isInfix

theorem part_right (h : part <:+: code) : part <:+: rest ++ code :=
  h.trans (List.suffix_append rest code).isInfix

theorem part_flatMap {α : Type} {f : α → Code} {as : List α} {a : α} (h : a ∈ as)
    (ha : part <:+: f a) : part <:+: as.flatMap f := by
  obtain ⟨before, after, rfl⟩ := List.append_of_mem h
  rw [List.flatMap_append, List.flatMap_cons]
  exact part_right (part_left ha)

theorem part_body {b : Option Block} {c : Block} (h : c ∈ b.toList) : block c <:+: body b := by
  rw [body_eq]
  exact part_flatMap h (List.infix_refl _)

theorem part_value {e : Option Expression} {v : Expression} (h : v ∈ e.toList) :
    lowering.expression v <:+: lowering.value e := by
  rw [value_eq]
  exact part_flatMap h (List.infix_refl _)

theorem part_increment {var : String} {e : Option Expression} {v : Expression}
    (h : v ∈ e.toList) : lowering.expression v <:+: increment var e := by
  rw [Option.mem_toList.mp h]
  exact part_left (List.infix_refl _)

/-- A case that compares with something evaluates what it compares. -/
theorem part_switchCase {scrutinee : Option Expression} {exit : Label} {c : SwitchCase}
    (h : c.values ≠ []) : lowering.value scrutinee <:+: switchCase scrutinee exit c := by
  obtain ⟨v, hv⟩ := List.exists_mem_of_ne_nil _ h
  rw [switchCase_eq, caseTest]
  refine part_left (part_left (part_left (part_left (part_flatMap hv ?_))))
  exact part_left (part_left (List.infix_refl _))

end

end Assembly

namespace Node

open Assembly

/-- The code of a child that is evaluated is in the code of the node. -/
theorem code_of_evaluated {n c : Node} (h : n.Every HasValues) (hc : c ∈ n.evaluated)
    (scrutinee : Option Expression) (exit : Label) :
    ∃ scrutinee' exit', c.code scrutinee' exit' <:+: n.code scrutinee exit := by
  cases n with
  | program p =>
    obtain ⟨f, hf, rfl⟩ := List.mem_map.mp hc
    exact ⟨none, exit, part_flatMap hf (List.infix_refl _)⟩
  | function f =>
    obtain ⟨b, hb, rfl⟩ := List.mem_map.mp hc
    exact ⟨none, exit, part_left (part_right (part_body hb))⟩
  | block b =>
    obtain ⟨s, hs, rfl⟩ := List.mem_map.mp hc
    refine ⟨none, exit, ?_⟩
    rw [code, block_eq, ← statement_eq]
    exact part_flatMap hs (List.infix_refl _)
  | assignment a =>
    obtain ⟨e, he, rfl⟩ := List.mem_map.mp hc
    exact ⟨none, exit, part_left (part_value he)⟩
  | ret r =>
    obtain ⟨e, he, rfl⟩ := List.mem_map.mp hc
    exact ⟨none, exit, part_left (part_value he)⟩
  | switchExit e | loopExit e | identifier i => cases hc
  | loop l =>
    refine ⟨none, exit, ?_⟩
    simp only [evaluated, children, List.mem_append, List.mem_map] at hc
    rw [code, loop_eq]
    obtain ⟨e, (he | he) | he, rfl⟩ | ⟨b, hb, rfl⟩ := hc
    · exact part_left (part_left (part_left (part_left (part_left (part_left
        (List.infix_cons (part_value he)))))))
    · exact part_left (part_left (part_left (part_left (part_right (part_value he)))))
    · exact part_left (part_right (part_increment he))
    · exact part_left (part_left (part_right (part_body hb)))
  | conditional k =>
    refine ⟨none, exit, ?_⟩
    simp only [evaluated, children, List.mem_append, List.mem_map] at hc
    rw [code, conditional_eq]
    obtain ⟨e, he, rfl⟩ | ⟨b, hb | hb, rfl⟩ := hc
    · exact part_left (part_left (part_left (part_left (part_left
        (List.infix_cons (part_value he))))))
    · exact part_left (part_left (part_left (part_right (part_body hb))))
    · exact part_left (part_right (part_body hb))
  | switch s =>
    refine ⟨s.scrutinee, s.exitLabel, ?_⟩
    simp only [evaluated, List.mem_append, List.mem_map] at hc
    change _ <:+: Assembly.switch s
    rw [switch_eq]
    obtain (he | ⟨k, hk, rfl⟩) | ⟨b, hb, rfl⟩ := hc
    · split at he
      · cases he
      · next compared =>
        obtain ⟨e, scrutinised, rfl⟩ := List.mem_map.mp he
        obtain ⟨k, hk⟩ := List.exists_mem_of_ne_nil _ (mt List.isEmpty_iff.mpr compared)
        have values : k.values ≠ [] := (h.child (c := switchCase k) (by simp [children, hk])).self
        refine part_left (part_left (List.infix_cons (part_flatMap hk ?_)))
        exact (part_value scrutinised).trans (part_switchCase values)
    · exact part_left (part_left (List.infix_cons (part_flatMap hk (List.infix_refl _))))
    · exact part_left (part_right (part_body hb))
  | switchCase k =>
    refine ⟨none, exit, ?_⟩
    simp only [evaluated, children, List.mem_append, List.mem_map] at hc
    change _ <:+: Assembly.switchCase scrutinee exit k
    rw [switchCase_eq]
    obtain ⟨v, hv, rfl⟩ | ⟨b, hb, rfl⟩ := hc
    · refine part_left (part_left (part_left (part_left (part_flatMap hv ?_))))
      exact part_left (part_right (List.infix_refl _))
    · exact part_left (part_right (part_body hb))
  | expression e =>
    obtain ⟨token, ht, hn⟩ := List.mem_filterMap.mp hc
    obtain ⟨l, rfl⟩ := Token.eq_leaf_of_node? hn
    refine ⟨none, exit, ?_⟩
    change _ <:+: lowering.expression e
    rw [expression_eq]
    cases l with
    | call k =>
      cases hn
      have step : .operand (.call k) ∈ e.order := Expression.mem_order.mpr ht
      exact part_flatMap step (List.infix_refl _)
    | identifier i =>
      cases hn
      exact List.nil_infix
    | constant k => cases hn
  | call k =>
    obtain ⟨e, he, rfl⟩ := List.mem_map.mp hc
    refine ⟨none, exit, ?_⟩
    change _ <:+: lowering.callCode k
    rw [callCode_eq]
    exact part_left (List.infix_cons (part_flatMap he (List.infix_refl _)))

/-- The code of what is evaluated in a tree is in the code of the tree. -/
theorem Evaluates.code {n m : Node} (he : n.Evaluates m) (h : n.Every HasValues)
    (scrutinee : Option Expression) (exit : Label) :
    ∃ scrutinee' exit', m.code scrutinee' exit' <:+: n.code scrutinee exit := by
  induction he generalizing scrutinee exit with
  | self n => exact ⟨scrutinee, exit, List.infix_refl _⟩
  | inner hc _ ih =>
    obtain ⟨scrutinee', exit', outer⟩ := code_of_evaluated h hc scrutinee exit
    obtain ⟨scrutinee'', exit'', part⟩ := ih (h.child (evaluated_subset hc)) scrutinee' exit'
    exact ⟨scrutinee'', exit'', part.trans outer⟩

end Node

end StackCompiler
