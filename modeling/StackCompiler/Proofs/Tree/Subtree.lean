import Mathlib.Data.List.Perm.Basic
import StackCompiler.Tree.Node

/-!
The nodes of a tree, from a node down to the identifiers and calls among its tokens. What a tree
holds altogether is collected from what its single nodes hold, and placing a node below another one
puts the two collections together.
-/

namespace StackCompiler

def Statement.node : Statement → Node
  | .assignment a => .assignment a
  | .block b => .block b
  | .conditional c => .conditional c
  | .loop l => .loop l
  | .switch s => .switch s
  | .switchExit e => .switchExit e
  | .loopExit e => .loopExit e
  | .ret r => .ret r
  | .call c => .call c

theorem Node.statement?_eq_some {n : Node} {s : Statement} (h : n.statement? = some s) :
    n = s.node := by
  cases n <;> cases h <;> rfl

/-- Constants are no nodes of their own. -/
def Leaf.node? : Leaf → Option Node
  | .identifier i => some (.identifier i)
  | .constant _ => none
  | .call c => some (.call c)

def Token.node? : Token Leaf → Option Node
  | .leaf l => l.node?
  | _ => none

theorem Token.eq_leaf_of_node? {token : Token Leaf} {n : Node} (h : token.node? = some n) :
    ∃ l, token = .leaf l := by
  cases token with
  | leaf l => exact ⟨l, rfl⟩
  | _ => cases h

namespace Node

def children : Node → List Node
  | program p => p.functions.map function
  | function f => f.body.toList.map block
  | block b => b.statements.map Statement.node
  | assignment a => a.value.toList.map expression
  | ret r => r.value.toList.map expression
  | loop l => (l.start.toList ++ l.stop.toList ++ l.increment.toList).map expression ++
      l.body.toList.map block
  | conditional c => c.condition.toList.map expression ++
      (c.thenBlock.toList ++ c.elseBlock.toList).map block
  | switch s => s.scrutinee.toList.map expression ++ s.cases.map switchCase ++
      s.fallback.toList.map block
  | switchCase c => c.values.map expression ++ c.body.toList.map block
  | expression e => e.tokens.filterMap Token.node?
  | call c => c.args.map expression
  | switchExit _ | loopExit _ | identifier _ => []

@[simp] theorem children_exit (exit : ExitKind) (id : Nat) (target : Option Nat) :
    (exit.node id target).children = [] := by
  cases exit <;> rfl

private theorem sizeOf_statement (s : Statement) : sizeOf s.node ≤ sizeOf s := by
  cases s <;> simp [Statement.node]

private theorem sizeOf_of_mem_toList {α : Type} [SizeOf α] {o : Option α} {a : α}
    (h : a ∈ o.toList) : sizeOf a < sizeOf o := by
  simp [Option.mem_toList.mp h]

theorem sizeOf_child {n c : Node} (h : c ∈ n.children) : sizeOf c < sizeOf n := by
  cases n with
  | program p =>
    obtain ⟨f, hf, rfl⟩ := List.mem_map.mp h
    have hl := List.sizeOf_lt_of_mem hf
    cases p; simp at hl ⊢; omega
  | function f =>
    obtain ⟨b, hb, rfl⟩ := List.mem_map.mp h
    have hl := sizeOf_of_mem_toList hb
    cases f; simp at hl ⊢; omega
  | block b =>
    obtain ⟨s, hs, rfl⟩ := List.mem_map.mp h
    have hl := List.sizeOf_lt_of_mem hs
    have hn := sizeOf_statement s
    cases b; simp at hl ⊢; omega
  | assignment a =>
    obtain ⟨e, he, rfl⟩ := List.mem_map.mp h
    have hl := sizeOf_of_mem_toList he
    cases a; simp at hl ⊢; omega
  | ret r =>
    obtain ⟨e, he, rfl⟩ := List.mem_map.mp h
    have hl := sizeOf_of_mem_toList he
    cases r; simp at hl ⊢; omega
  | loop l =>
    cases l
    simp only [children, List.mem_append, List.mem_map] at h
    obtain ⟨e, (he | he) | he, rfl⟩ | ⟨b, hb, rfl⟩ := h
    · have hl := sizeOf_of_mem_toList he; simp at hl ⊢; omega
    · have hl := sizeOf_of_mem_toList he; simp at hl ⊢; omega
    · have hl := sizeOf_of_mem_toList he; simp at hl ⊢; omega
    · have hl := sizeOf_of_mem_toList hb; simp at hl ⊢; omega
  | conditional k =>
    cases k
    simp only [children, List.mem_append, List.mem_map] at h
    obtain ⟨e, he, rfl⟩ | ⟨b, hb | hb, rfl⟩ := h
    · have hl := sizeOf_of_mem_toList he; simp at hl ⊢; omega
    · have hl := sizeOf_of_mem_toList hb; simp at hl ⊢; omega
    · have hl := sizeOf_of_mem_toList hb; simp at hl ⊢; omega
  | switch s =>
    cases s
    simp only [children, List.mem_append, List.mem_map] at h
    obtain (⟨e, he, rfl⟩ | ⟨k, hk, rfl⟩) | ⟨b, hb, rfl⟩ := h
    · have hl := sizeOf_of_mem_toList he; simp at hl ⊢; omega
    · have hl := List.sizeOf_lt_of_mem hk; simp at hl ⊢; omega
    · have hl := sizeOf_of_mem_toList hb; simp at hl ⊢; omega
  | switchCase k =>
    cases k
    simp only [children, List.mem_append, List.mem_map] at h
    obtain ⟨e, he, rfl⟩ | ⟨b, hb, rfl⟩ := h
    · have hl := List.sizeOf_lt_of_mem he; simp at hl ⊢; omega
    · have hl := sizeOf_of_mem_toList hb; simp at hl ⊢; omega
  | expression e =>
    obtain ⟨t, ht, hn⟩ := List.mem_filterMap.mp h
    have hl := List.sizeOf_lt_of_mem ht
    obtain ⟨l, rfl⟩ : ∃ l, t = .leaf l := by cases t <;> simp [Token.node?] at hn ⊢
    cases e
    cases l <;> cases hn <;> simp at hl ⊢ <;> omega
  | call k =>
    obtain ⟨e, he, rfl⟩ := List.mem_map.mp h
    have hl := List.sizeOf_lt_of_mem he
    cases k; simp at hl ⊢; omega
  | _ => cases h

/-- The node itself and all nodes below it. -/
def subtree (n : Node) : List Node := n :: n.children.attach.flatMap fun c => c.val.subtree
termination_by sizeOf n
decreasing_by exact sizeOf_child c.property

theorem subtree_eq (n : Node) : n.subtree = n :: n.children.flatMap subtree := by
  rw [subtree, List.flatMap_subtype (fun c _ => rfl), List.unattach_attach]

theorem self_mem_subtree (n : Node) : n ∈ n.subtree := by
  rw [subtree_eq]
  exact List.mem_cons_self

/-- What holds of a node if it holds of its children holds of all nodes. -/
theorem induction {P : Node → Prop} (step : ∀ n, (∀ c ∈ n.children, P c) → P n) (n : Node) : P n :=
  step n fun c _ => induction step c
termination_by sizeOf n
decreasing_by exact sizeOf_child ‹_›

theorem child_mem_subtree {root n c : Node} (hn : n ∈ root.subtree) (hc : c ∈ n.children) :
    c ∈ root.subtree := by
  induction root using Node.induction with
  | step root ih =>
    rw [subtree_eq, List.mem_cons, List.mem_flatMap] at hn ⊢
    right
    obtain rfl | ⟨k, hk, hn⟩ := hn
    · exact ⟨c, hc, c.self_mem_subtree⟩
    · exact ⟨k, hk, ih k hk hn⟩

theorem mem_subtree_trans {root n m : Node} (hn : n ∈ root.subtree) (hm : m ∈ n.subtree) :
    m ∈ root.subtree := by
  induction n using Node.induction with
  | step n ih =>
    rw [subtree_eq, List.mem_cons, List.mem_flatMap] at hm
    obtain rfl | ⟨c, hc, hm⟩ := hm
    · exact hn
    · exact ih c hc (child_mem_subtree hn hc) hm

/-- What the nodes of the tree hold, each of them what `own` says. -/
def collect {β : Type} (own : Node → List β) (n : Node) : List β := n.subtree.flatMap own

theorem collect_eq {β : Type} (own : Node → List β) (n : Node) :
    n.collect own = own n ++ n.children.flatMap (collect own) := by
  rw [collect, subtree_eq, List.flatMap_cons, List.flatMap_assoc]
  rfl

/-- Only fields that are no children have changed. -/
theorem collect_of_fields {β : Type} {own : Node → List β} {m n : Node} (hm : own m = own n)
    (hc : m.children = n.children) : m.collect own = n.collect own := by
  rw [collect_eq, collect_eq, hm, hc]

/-- One more child brings what it holds and nothing else. -/
theorem count_collect_of_perm {β : Type} [BEq β] {own : Node → List β} {m n c : Node}
    (hc : m.children.Perm (n.children ++ [c])) (hm : own m = own n) (b : β) :
    (m.collect own).count b = (n.collect own).count b + (c.collect own).count b := by
  have perm := (hc.flatMap_right (collect own)).count_eq b
  rw [collect_eq own m, collect_eq own n, hm]
  simp only [List.flatMap_append, List.count_append, List.flatMap_cons, List.flatMap_nil,
    List.append_nil] at perm ⊢
  omega

/-- Nodes that stand for values. -/
def isOperand : Node → Bool
  | expression _ | identifier _ | call _ => true
  | _ => false

theorem isOperand_of_tokens? {n : Node} {tokens : List (Token Leaf)}
    (h : n.tokens? = some tokens) : n.isOperand := by
  cases n <;> first | rfl | cases h

theorem isOperand_children {n c : Node} (h : n.isOperand) (hc : c ∈ n.children) : c.isOperand := by
  cases n with
  | expression e =>
    obtain ⟨t, -, ht⟩ := List.mem_filterMap.mp hc
    cases t with
    | leaf l => cases l <;> cases ht <;> rfl
    | _ => cases ht
  | call k =>
    obtain ⟨e, -, rfl⟩ := List.mem_map.mp hc
    rfl
  | identifier i => cases hc
  | _ => cases h

/-- What values do not hold, nothing below them holds. -/
theorem collect_operand {β : Type} {own : Node → List β}
    (empty : ∀ {m : Node}, m.isOperand → own m = []) {n : Node} (h : n.isOperand) :
    n.collect own = [] := by
  induction n using Node.induction with
  | step n ih =>
    rw [collect_eq, List.append_eq_nil_iff, List.flatMap_eq_nil_iff]
    exact ⟨empty h, fun c hc => ih c hc (isOperand_children h hc)⟩

/-- The child becomes one of the children, not always the last one: the body of a loop may be there
before its increment. -/
theorem children_place {parent child n : Node} (h : parent.place child = some n) :
    n.children.Perm (parent.children ++ [child]) := by
  have last (l : List Node) (c : Node) : (c :: l).Perm (l ++ [c]) :=
    (List.perm_append_singleton c l).symm
  unfold place at h
  split at h
  · cases h; simp [children]
  · split at h <;> cases h
    simp [children, *]
  · split at h <;> cases h
    simp [children, *]
  · split at h <;> cases h
    simp [children, *]
  · cases h; simp [children]
  · split at h <;> cases h
    simpa [children, *] using last (_ ++ _) _
  · split at h <;> cases h
    · simpa [children, *] using (last _ _).append_left _
    · simp [children, *]
  · split at h <;> cases h
    · simpa [children, *] using last (_ ++ (_ ++ _)) _
    · simpa [children, *] using last (_ ++ _) _
    · simp [children, *]
  · split at h <;> cases h
    simp [children, *]
  · split at h <;> cases h
    simpa [children, *] using last (_ ++ _) _
  · obtain ⟨s, hs, rfl⟩ := Option.map_eq_some_iff.mp h
    simp [children, statement?_eq_some hs]
  · cases h

theorem children_fallback {w : Switch} (b : Block) (hw : w.fallback = none) :
    (switch { w with fallback := some b }).children.Perm ((switch w).children ++ [block b]) := by
  simp [children, hw]

theorem children_cases (w : Switch) (c : SwitchCase) :
    (switch { w with cases := w.cases ++ [c] }).children.Perm
      ((switch w).children ++ [switchCase c]) := by
  simp only [children, List.map_append, List.map_cons, List.map_nil, List.append_assoc]
  exact (List.perm_append_comm.append_left _).append_left _

theorem children_values (c : SwitchCase) (v : Expression) :
    (switchCase { c with values := c.values ++ [v] }).children.Perm
      ((switchCase c).children ++ [expression v]) := by
  simp only [children, List.map_append, List.map_cons, List.map_nil, List.append_assoc]
  exact List.perm_append_comm.append_left _

/-- A case that gets a body has what it had, or less if it had a body before. -/
theorem count_collect_body {β : Type} [BEq β] {own : Node → List β} (c : SwitchCase) (b : Block)
    (hm : own (switchCase { c with body := some b }) = own (switchCase c)) (x : β) :
    ((switchCase { c with body := some b }).collect own).count x ≤
      ((switchCase c).collect own).count x + ((block b).collect own).count x := by
  rw [collect_eq own (switchCase _), collect_eq own (switchCase c), hm]
  simp only [children, List.flatMap_append, List.count_append, Option.toList_some, List.map_cons,
    List.map_nil, List.flatMap_cons, List.flatMap_nil, List.append_nil]
  omega

theorem place_same {parent child n : Node} (h : parent.place child = some n) :
    n.kind = parent.kind ∧ n.id = parent.id := by
  unfold place at h
  split at h
  case h_11 b child =>
    obtain ⟨s, -, rfl⟩ := Option.map_eq_some_iff.mp h
    exact ⟨rfl, rfl⟩
  all_goals first
    | cases h; done
    | cases h; exact ⟨rfl, rfl⟩
    | split at h <;> cases h <;> exact ⟨rfl, rfl⟩

/-- Nothing is placed in a case. -/
theorem place_switchCase {parent child : Node} {c : SwitchCase}
    (h : parent.place child = some (switchCase c)) : False := by
  unfold place at h
  split at h
  case h_11 b child =>
    obtain ⟨s, -, hs⟩ := Option.map_eq_some_iff.mp h
    cases hs
  all_goals first
    | cases h
    | (split at h <;> cases h)

end Node

/-- The first definition of a name counts. -/
def Program.function? (p : Program) (name : String) : Option Function :=
  p.functions.find? (·.name == name)

def Program.main? (p : Program) : Option Function :=
  (p.function? "_main_").or (p.function? "main")

theorem Program.function?_eq_some {p : Program} {name : String} {f : Function}
    (h : p.function? name = some f) : f.name = name ∧ .function f ∈ (Node.program p).children :=
  ⟨by simpa using List.find?_some h, List.mem_map.mpr ⟨f, List.mem_of_find?_eq_some h, rfl⟩⟩

end StackCompiler
