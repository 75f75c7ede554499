import StackCompiler.Proofs.Construction.Invariant

/-!
All texts of a tree are texts that some action wrote, or empty.
-/

namespace StackCompiler

def Token.literal? : Token Leaf → Option String
  | .leaf (.constant k) => some k.literal
  | _ => none

namespace Node

/-- Texts that the node itself holds. The name of an identifier is held by the identifier, and that
of a constant, which is no node, by the expression. -/
def texts : Node → List String
  | function f => f.name :: f.params
  | assignment a => [a.target]
  | loop l => [l.var]
  | expression e => e.tokens.filterMap Token.literal?
  | identifier i => [i.name]
  | call c => [c.name]
  | _ => []

theorem texts_place {parent child n : Node} (h : parent.place child = some n) :
    n.texts = parent.texts := by
  unfold place at h
  split at h
  case h_11 b child =>
    obtain ⟨s, -, rfl⟩ := Option.map_eq_some_iff.mp h
    rfl
  all_goals first
    | cases h; done
    | cases h; rfl
    | split at h <;> cases h <;> rfl

theorem mem_texts_rename {name text : String} {n n' : Node}
    (h : Construction.renamed? name n = some n') (ht : text ∈ n'.texts) :
    text = name ∨ text ∈ n.texts := by
  cases n <;> cases h
  case function f => exact (List.mem_cons.mp ht).imp_right (List.mem_cons_of_mem f.name)
  all_goals exact .inl (List.mem_singleton.mp ht)

theorem texts_append (e : Expression) (tokens : List (Token Leaf)) :
    (expression (e.append tokens)).texts =
      (expression e).texts ++ tokens.filterMap Token.literal? := List.filterMap_append

theorem mem_texts_tokens {n : Node} {tokens : List (Token Leaf)} {text : String}
    (h : n.tokens? = some tokens) (ht : text ∈ tokens.filterMap Token.literal?) :
    text ∈ n.texts := by
  cases n <;> cases h
  case expression => exact ht
  all_goals cases ht

end Node

/-- A property of texts that the empty one has. -/
theorem kept_texts {allowed : String → Prop} (empty : allowed "") :
    Kept allowed fun n => ∀ text ∈ n.texts, allowed text where
  start o k := by cases o <;> simp [Opening.node, Node.texts, Loop.empty, Expression.empty, empty]
  exit exit _ _ := by cases exit <;> simp [ExitKind.node, Node.texts]
  rename ok hn h text ht := by
    obtain rfl | ht := Node.mem_texts_rename hn ht
    · exact ok
    · exact h text ht
  parameter ok h text ht := by
    rw [Node.texts, ← List.cons_append, List.mem_append, List.mem_singleton] at ht
    obtain ht | rfl := ht
    · exact h text ht
    · exact ok
  literal {_ k e} ok h := by
    rw [Node.texts_append, List.forall_mem_append]
    refine ⟨h, fun text ht => ?_⟩
    unfold Construction.literalLeaf at ht
    split_ifs at ht
    · cases ht
    · rw [List.mem_singleton.mp ht]
      exact ok
  named ok := by simp [Node.texts, ok]
  symbol {t e} ht h := by
    rw [Node.texts_append, List.forall_mem_append]
    refine ⟨h, ?_⟩
    cases t <;> cases ht <;> simp [Token.literal?]
  tokens ht hn h := by
    rw [Node.texts_append, List.forall_mem_append]
    exact ⟨h, fun text htext => hn text (Node.mem_texts_tokens ht htext)⟩
  call h := h
  place hn hp _ := by rwa [Node.texts_place hn]
  announced h := h
  fallback _ _ _ h := h
  caseBody _ h := h
  case _ _ h := h
  firstValue _ := by simp [Node.texts]
  nextValue _ h := h

end StackCompiler
