import StackCompiler.Proofs.Construction.Move

/-!
No number is given to two nodes of a tree. A node is never copied, and the next number is above all
those that were given, whatever the actions of the construction were.
-/

namespace StackCompiler

/-- Constants have a number although they are no nodes. -/
def Token.constantId? : Token Leaf → Option Nat
  | .leaf (.constant c) => some c.id
  | _ => none

namespace Node

def ownIds : Node → List Nat
  | expression e => e.id :: e.tokens.filterMap Token.constantId?
  | n => [n.id]

/-- The numbers of the nodes of the tree and of its constants. -/
def ids (n : Node) : List Nat := n.collect ownIds

def tokenIds (tokens : List (Token Leaf)) : List Nat :=
  tokens.filterMap Token.constantId? ++ (tokens.filterMap Token.node?).flatMap ids

theorem ids_eq (n : Node) : n.ids = n.ownIds ++ n.children.flatMap ids := collect_eq ownIds n

theorem ids_expression (e : Expression) : (expression e).ids = e.id :: tokenIds e.tokens := by
  simp [ids_eq, ownIds, children, tokenIds]

/-- Constants have numbers too, but they are not needed here. -/
theorem nodup_map_id {ns : List Node} (h : (ns.flatMap ownIds).Nodup) :
    (ns.map Node.id).Nodup := by
  refine List.Nodup.sublist ?_ h
  induction ns with
  | nil => exact List.Sublist.refl _
  | cons n ns ih =>
    rw [List.map_cons, List.flatMap_cons]
    have own : [n.id].Sublist n.ownIds := by
      cases n <;> simp [ownIds, Node.id]
    rw [List.flatMap_cons, List.nodup_append] at h
    exact own.append (ih h.2.1)

variable (i : Nat)

theorem count_tokenIds_append (s t : List (Token Leaf)) :
    (tokenIds (s ++ t)).count i = (tokenIds s).count i + (tokenIds t).count i := by
  simp only [tokenIds, List.filterMap_append, List.flatMap_append, List.count_append]
  omega

theorem count_ids_append (e : Expression) (tokens : List (Token Leaf)) :
    (expression (e.append tokens)).ids.count i =
      (expression e).ids.count i + (tokenIds tokens).count i := by
  have sum := count_tokenIds_append i e.tokens tokens
  simp only [ids_expression, Expression.append, List.count_cons]
  omega

/-- A node that was just opened. -/
theorem ids_of_no_children {n : Node} (hi : n.ownIds = [n.id]) (hc : n.children = []) :
    n.ids = [n.id] := by
  simp [ids_eq, hi, hc]

theorem ids_start (o : Opening) (k : Nat) : (o.node k).ids = [k] := by
  cases o <;> exact ids_of_no_children rfl rfl

theorem ids_exit (exit : ExitKind) (k : Nat) (target : Option Nat) :
    (exit.node k target).ids = [k] := by
  cases exit <;> exact ids_of_no_children rfl rfl

theorem ids_renamed {name : String} {m n : Node} (h : Construction.renamed? name m = some n) :
    n.ids = m.ids := by
  cases m <;> cases h <;> exact collect_of_fields rfl rfl

theorem ownIds_place {parent child n : Node} (h : parent.place child = some n) :
    n.ownIds = parent.ownIds := by
  unfold place at h
  split at h
  case h_11 b child =>
    obtain ⟨s, -, rfl⟩ := Option.map_eq_some_iff.mp h
    rfl
  all_goals first
    | (cases h; rfl)
    | (split at h <;> cases h <;> rfl)
    | cases h

theorem count_ids_place {parent child n : Node} (h : parent.place child = some n) :
    n.ids.count i = parent.ids.count i + child.ids.count i :=
  count_collect_of_perm (children_place h) (ownIds_place h) i

/-- What becomes of a node in an expression: its wrapper may go, its tokens stay. -/
theorem count_ids_tokens {n : Node} {tokens : List (Token Leaf)} (h : n.tokens? = some tokens) :
    (tokenIds tokens).count i ≤ n.ids.count i := by
  cases n <;> cases h
  · rw [ids_expression, List.count_cons]
    omega
  · simp [tokenIds, Token.node?, Leaf.node?, List.filterMap_cons, Token.constantId?]
  · simp [tokenIds, Token.node?, Leaf.node?, List.filterMap_cons, Token.constantId?]

theorem count_ids_parts {parts : List Node} (h : ∀ n ∈ parts, n.tokens?.isSome) :
    (tokenIds (parts.flatMap fun n => n.tokens?.getD [])).count i ≤
      (parts.flatMap ids).count i := by
  induction parts with
  | nil => simp [tokenIds]
  | cons n parts ih =>
    simp only [List.mem_cons, forall_eq_or_imp] at h
    obtain ⟨tokens, ht⟩ := Option.isSome_iff_exists.mp h.1
    have first := count_ids_tokens i ht
    have rest := ih h.2
    simp only [List.flatMap_cons, ht, Option.getD_some, count_tokenIds_append, List.count_append]
    omega

end Node

namespace Stock

def ids (s : Stock) : List Nat := (s.items ++ s.loose).flatMap Node.ids

/-- Whatever is numbered next gets a new number. -/
structure Numbered (s : Stock) : Prop where
  nodup : s.ids.Nodup
  below : ∀ i ∈ s.ids, i < s.nextId

end Stock

open Node in
/-- A move gives the numbers up to the next one once each, and keeps no others than there were. -/
theorem Move.count_ids {terms : Terms} {s t : Stock} (h : Move terms s t) (i : Nat) :
    t.ids.count i ≤ s.ids.count i + (List.range' s.nextId (t.nextId - s.nextId)).count i ∧
      s.nextId ≤ t.nextId := by
  cases h <;> simp only [Stock.ids, List.cons_append, List.append_assoc, List.flatMap_cons,
    List.flatMap_append, List.count_append, Nat.add_sub_cancel_left, Nat.sub_self,
    List.range'_one, List.range'_zero, List.count_nil, Nat.le_add_right, Nat.le_refl, and_true]
  case start o items loose k =>
    rw [ids_start]
    omega
  case startExit exit items loose k ok =>
    rw [ids_exit]
    omega
  case rename hn =>
    rw [ids_renamed hn]
    omega
  case parameter name above f below loose k ok =>
    have same : (function { f with params := f.params ++ [name] }).ids = (function f).ids :=
      collect_of_fields rfl rfl
    rw [same]
    omega
  case literal text above e below loose k ok =>
    have sum := count_ids_append i e [.leaf (Construction.literalLeaf k text)]
    have new : tokenIds [.leaf (Construction.literalLeaf k text)] = [k] := by
      unfold Construction.literalLeaf
      split_ifs
      · simp [tokenIds, Token.node?, Leaf.node?, List.filterMap_cons, Token.constantId?, ids_eq,
          ownIds, children, Node.id]
      · rfl
    rw [new] at sum
    omega
  case symbol t above e below loose k ht =>
    have sum := count_ids_append i e [t]
    have new : tokenIds [t] = [] := by cases t <;> first | rfl | cases ht
    rw [new] at sum
    simp only [List.count_nil] at sum
    omega
  case operand n tokens above e below loose k ht =>
    have sum := count_ids_append i e tokens
    have kept := count_ids_tokens i ht
    omega
  case identifierToCall a below loose k =>
    have new : (call ⟨k, a.name, []⟩).ids = [k] := ids_of_no_children rfl rfl
    rw [new]
    omega
  case splice parts e below loose k hp =>
    have sum := count_ids_append i e (parts.flatMap fun n => n.tokens?.getD [])
    have kept := count_ids_parts i hp
    have turned := (parts.reverse_perm.flatMap_right Node.ids).count_eq i
    omega
  case place child parent n below loose k hn =>
    have sum := count_ids_place i hn
    omega
  case announceDefault above w below loose k ha =>
    have same : (switch { w with fallbackSeen := true }).ids = (switch w).ids :=
      collect_of_fields rfl rfl
    rw [same]
    omega
  case fallback b above w below loose k ha hw hs =>
    have sum : (switch { w with fallback := some b }).ids.count i =
        (switch w).ids.count i + (block b).ids.count i :=
      count_collect_of_perm (children_fallback b hw) rfl i
    omega
  case closeCase b c w below loose k hs =>
    have filled : (switchCase { c with body := some b }).ids.count i ≤
        (switchCase c).ids.count i + (block b).ids.count i := count_collect_body c b rfl i
    have sum : (switch { w with cases := w.cases ++ [{ c with body := some b }] }).ids.count i =
        (switch w).ids.count i + (switchCase { c with body := some b }).ids.count i :=
      count_collect_of_perm (children_cases w _) rfl i
    omega
  case firstValue v items loose k hi =>
    have sum : (switchCase (.first k v)).ids = [k] ++ (expression v).ids := by
      simp [ids_eq (switchCase _), ownIds, children, Node.id, SwitchCase.first]
    rw [sum, List.count_append]
    omega
  case nextValue v c below loose k =>
    have sum : (switchCase { c with values := c.values ++ [v] }).ids.count i =
        (switchCase c).ids.count i + (expression v).ids.count i :=
      count_collect_of_perm (children_values c v) rfl i
    omega
  case handOver taken left loose k ok =>
    have turned := (taken.reverse_perm.flatMap_right Node.ids).count_eq i
    omega
  case takeBack taken items loose k =>
    have turned := (taken.reverse_perm.flatMap_right Node.ids).count_eq i
    omega
  case forget lost items loose k => omega

theorem Stock.Numbered.move {terms : Terms} {s t : Stock} (hs : s.Numbered)
    (h : Move terms s t) : t.Numbered := by
  have count := h.count_ids
  have new (i : Nat) : (List.range' s.nextId (t.nextId - s.nextId)).count i ≤ 1 :=
    List.nodup_iff_count.mp (List.nodup_range' 1) i
  constructor
  · rw [List.nodup_iff_count]
    intro i
    have old := List.nodup_iff_count.mp hs.nodup i
    by_cases hi : i ∈ s.ids
    · have fresh : (List.range' s.nextId (t.nextId - s.nextId)).count i = 0 := by
        rw [List.count_eq_zero, List.mem_range'_1]
        have := hs.below i hi
        omega
      have := (count i).1
      omega
    · have absent := List.count_eq_zero_of_not_mem hi
      have := (count i).1
      have := new i
      omega
  · intro i hi
    have positive := List.count_pos_iff.mpr hi
    have hc := count i
    by_cases old : i ∈ s.ids
    · have := hs.below i old
      omega
    · have absent := List.count_eq_zero_of_not_mem old
      have made : i ∈ List.range' s.nextId (t.nextId - s.nextId) := by
        apply List.count_pos_iff.mp
        omega
      rw [List.mem_range'_1] at made
      omega

theorem Moves.numbered {terms : Terms} {s : Stock} (h : Moves terms {} s) :
    s.Numbered := by
  induction h with
  | refl => exact ⟨List.nodup_nil, by simp [Stock.ids]⟩
  | tail _ move ih => exact ih.move move

end StackCompiler
