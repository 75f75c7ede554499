import StackCompiler.Proofs.Construction.Move
import StackCompiler.Proofs.Tree.Scope

/-!
An exit aims at what is around it when it is opened, and nodes are closed from the top, so that the
same is around it in the end. Only the default of a switch is taken from above nodes that are still
open. It may lose a loop that way, but then what is above the switch can never be closed.
-/

namespace StackCompiler

namespace Node

/-- A switch that has its default takes no other block. -/
def isFull : Node → Bool
  | switch w => w.fallbackSeen && w.fallback.isSome
  | _ => false

/-- The same node, in which some fields may have been filled. -/
structure Grows (n m : Node) : Prop where
  kind : m.kind = n.kind
  id : m.id = n.id
  full : n.isFull → m.isFull

variable {n m c parent child : Node} {σ : Scope}

theorem Grows.isOperand (h : n.Grows m) : m.isOperand = n.isOperand := by
  have kind := h.kind
  cases n <;> cases m <;> first | rfl | cases kind

theorem Grows.enter (h : n.Grows m) (σ : Scope) : σ.enter m = σ.enter n :=
  Scope.enter_congr σ h.kind h.id

/-- Operands and full switches take nothing but values. -/
theorem isOperand_of_place (h : parent.place child = some n)
    (hp : parent.isOperand ∨ parent.isFull) : child.isOperand := by
  cases parent with
  | call c | switch s => cases child <;> first | rfl | cases h
  | expression e | identifier i => cases child <;> cases h
  | _ => obtain hp | hp := hp <;> cases hp

theorem grows_place (h : parent.place child = some n) : parent.Grows n where
  kind := (place_same h).1
  id := (place_same h).2
  full := by
    cases parent with
    | switch s =>
      cases child with
      | expression e =>
        simp only [place] at h
        split at h <;> cases h
        exact fun full => full
      | _ => cases h
    | _ =>
      intro full
      cases full

theorem aims_place (h : parent.place child = some n) : σ.Aims n := by
  have kind := (place_same h).1
  cases n with
  | switchExit e | loopExit e => cases parent <;> first | cases kind; done | cases h
  | _ => trivial

theorem aims_of_isOperand (h : n.isOperand) : σ.Aims n := by
  cases n <;> trivial

/-- No exit is inside of a value. -/
theorem follows_of_isOperand (h : n.isOperand) : n.Follows Scope.Aims σ := by
  induction n using Node.induction generalizing σ with
  | step n ih => exact .intro (aims_of_isOperand h) fun c hc => ih c hc (isOperand_children h hc)

theorem Follows.of_fields (h : n.Follows Scope.Aims σ) (g : n.Grows m) (own : σ.Aims m)
    (hc : m.children = n.children) : m.Follows Scope.Aims σ :=
  .intro own fun c hm => g.enter σ ▸ h.inside c (hc ▸ hm)

/-- A new child is in the scope that the others are in. -/
theorem Follows.of_perm (h : n.Follows Scope.Aims σ) (g : n.Grows m) (own : σ.Aims m)
    (hc : m.children.Perm (n.children ++ [c])) (new : c.Follows Scope.Aims (σ.enter n)) :
    m.Follows Scope.Aims σ := by
  refine .intro own fun d hd => ?_
  rw [g.enter]
  obtain old | last := List.mem_append.mp (hc.mem_iff.mp hd)
  · exact h.inside d old
  · exact List.mem_singleton.mp last ▸ new

end Node

open Node

/-- Exits inside of the open nodes aim at what is around them by now. -/
def Aimed : List Node → Prop
  | [] => True
  | n :: below => n.Follows Scope.Aims (.ofOpen below) ∧ Aimed below

/-- There is nothing but values on top of a full switch. -/
def Shut : List Node → Prop
  | [] => False
  | n :: below => n.isFull ∨ n.isOperand ∧ Shut below

/-- Some node that is no value would have to be closed into a full switch. -/
def Jammed : List Node → Prop
  | [] => False
  | n :: below => n.isOperand = false ∧ Shut below ∨ Jammed below

/-- The exits aim right, or else the open nodes can never become one. -/
def Nested (items : List Node) : Prop := Jammed items ∨ Aimed items

section

variable {n m : Node} {above below : List Node}

theorem ofOpen_replace (g : n.Grows m) :
    Scope.ofOpen (above ++ m :: below) = Scope.ofOpen (above ++ n :: below) := by
  induction above with
  | nil => rw [List.nil_append, List.nil_append, Scope.ofOpen_cons, Scope.ofOpen_cons, g.enter]
  | cons a above ih =>
    rw [List.cons_append, List.cons_append, Scope.ofOpen_cons, Scope.ofOpen_cons, ih]

theorem shut_replace (g : n.Grows m) (h : Shut (above ++ n :: below)) :
    Shut (above ++ m :: below) := by
  induction above with
  | nil => exact h.imp g.full fun ⟨operand, rest⟩ => ⟨g.isOperand.trans operand, rest⟩
  | cons a above ih => exact h.imp_right fun ⟨operand, rest⟩ => ⟨operand, ih rest⟩

theorem jammed_replace (g : n.Grows m) (h : Jammed (above ++ n :: below)) :
    Jammed (above ++ m :: below) := by
  induction above with
  | nil => exact h.imp_left fun ⟨operand, rest⟩ => ⟨g.isOperand.trans operand, rest⟩
  | cons a above ih => exact h.imp (fun ⟨operand, rest⟩ => ⟨operand, shut_replace g rest⟩) ih

theorem Aimed.replace (h : Aimed (above ++ n :: below)) (g : n.Grows m)
    (hm : n.Follows Scope.Aims (.ofOpen below) → m.Follows Scope.Aims (.ofOpen below)) :
    Aimed (above ++ m :: below) := by
  induction above with
  | nil => exact ⟨hm h.1, h.2⟩
  | cons a above ih => exact ⟨ofOpen_replace g ▸ h.1, ih h.2⟩

theorem Nested.replace (h : Nested (above ++ n :: below)) (g : n.Grows m)
    (hm : ∀ {σ}, n.Follows Scope.Aims σ → m.Follows Scope.Aims σ) : Nested (above ++ m :: below) :=
  h.imp (jammed_replace g) fun aimed => aimed.replace g hm

theorem jammed_replace_top (g : n.Grows m) : Jammed (n :: below) → Jammed (m :: below) :=
  @jammed_replace n m [] below g

theorem Nested.replace_top (h : Nested (n :: below)) (g : n.Grows m)
    (hm : ∀ {σ}, n.Follows Scope.Aims σ → m.Follows Scope.Aims σ) : Nested (m :: below) :=
  @Nested.replace n m [] below h g hm

theorem Nested.push (h : Nested below) (hn : n.Follows Scope.Aims (.ofOpen below)) :
    Nested (n :: below) := h.imp .inr fun aimed => ⟨hn, aimed⟩

theorem Nested.pop (h : Nested (n :: below)) (hn : n.isOperand) : Nested below := by
  obtain (⟨other, -⟩ | jammed) | aimed := h
  · rw [hn] at other
    cases other
  · exact .inl jammed
  · exact .inr aimed.2

theorem Nested.pop_all (h : Nested (above ++ below)) (operands : ∀ n ∈ above, n.isOperand) :
    Nested below := by
  induction above with
  | nil => exact h
  | cons n above ih =>
    rw [List.forall_mem_cons] at operands
    exact ih (Nested.pop h operands.1) operands.2

theorem Nested.push_all (h : Nested below) (operands : ∀ n ∈ above, n.isOperand) :
    Nested (above ++ below) := by
  induction above with
  | nil => exact h
  | cons n above ih =>
    rw [List.forall_mem_cons] at operands
    exact (ih operands.2).push (follows_of_isOperand operands.1)

theorem Nested.place {parent child : Node} (h : Nested (child :: parent :: below))
    (hn : parent.place child = some n) : Nested (n :: below) := by
  have grows := grows_place hn
  obtain (⟨other, shut⟩ | jammed) | ⟨inner, outer, aimed⟩ := h
  · have value := isOperand_of_place hn (shut.symm.imp_left And.left)
    rw [other] at value
    cases value
  · exact .inl (jammed_replace_top grows jammed)
  · rw [Scope.ofOpen_cons] at inner
    exact .inr ⟨outer.of_perm grows (aims_place hn) (children_place hn) inner, aimed⟩

/-- Below nodes that are no switches there is no full one if the first switch is not. -/
theorem not_shut {w : Switch} (ha : ∀ n ∈ above, Construction.switch? n = none)
    (hw : (Node.switch w).isFull = false) : ¬ Shut (above ++ .switch w :: below) := by
  induction above with
  | nil =>
    rintro (full | ⟨operand, -⟩)
    · rw [hw] at full
      cases full
    · cases operand
  | cons n above ih =>
    rw [List.forall_mem_cons] at ha
    rintro (full | ⟨-, rest⟩)
    · cases n <;> first | cases full | cases ha.1
    · exact ih ha.2 rest

/-- Nodes over a full switch are values, or one of them is stuck. -/
theorem isOperand_or_jammed (h : Shut below) :
    (∀ n ∈ above, n.isOperand) ∧ Shut (above ++ below) ∨ Jammed (above ++ below) := by
  induction above with
  | nil => exact .inl ⟨by simp, h⟩
  | cons n above ih =>
    obtain ⟨operands, shut⟩ | jammed := ih
    · cases hn : n.isOperand with
      | true => exact .inl ⟨List.forall_mem_cons.mpr ⟨hn, operands⟩, .inr ⟨hn, shut⟩⟩
      | false => exact .inr (.inl ⟨hn, shut⟩)
    · exact .inr (.inr jammed)

theorem ofOpen_operands (h : ∀ n ∈ above, n.isOperand) :
    Scope.ofOpen (above ++ below) = Scope.ofOpen below := by
  induction above with
  | nil => rfl
  | cons n above ih =>
    rw [List.forall_mem_cons] at h
    rw [List.cons_append, Scope.ofOpen_cons, ih h.2]
    cases n <;> first | rfl | cases h.1

/-- The only way by which a node gets past others that stay open. -/
theorem Nested.fallback {b : Block} {w : Switch}
    (h : Nested (.block b :: (above ++ .switch w :: below)))
    (ha : ∀ n ∈ above, Construction.switch? n = none) (hw : w.fallback = none)
    (hs : w.fallbackSeen = true) :
    Nested (above ++ .switch { w with fallback := some b } :: below) := by
  have empty : (Node.switch w).isFull = false := by simp [isFull, hw]
  have grows : (Node.switch w).Grows (.switch { w with fallback := some b }) :=
    ⟨rfl, rfl, by simp [empty]⟩
  obtain (⟨-, shut⟩ | jammed) | ⟨inner, aimed⟩ := h
  · exact absurd shut (not_shut ha empty)
  · exact .inl (jammed_replace grows jammed)
  · -- the block may be in a loop among the nodes above, which stays behind then
    have full : Shut (.switch { w with fallback := some b } :: below) := .inl (by simp [isFull, hs])
    obtain ⟨operands, -⟩ | jammed := @isOperand_or_jammed above _ full
    · rw [ofOpen_operands operands, Scope.ofOpen_cons] at inner
      exact .inr (aimed.replace grows fun outer =>
        outer.of_perm grows trivial (children_fallback b hw) inner)
    · exact .inl jammed

theorem Nested.closeCase {b : Block} {c : SwitchCase} {w : Switch}
    (h : Nested (.block b :: .switchCase c :: .switch w :: below)) (hs : w.fallbackSeen = false) :
    Nested (.switch { w with cases := w.cases ++ [{ c with body := some b }] } :: below) := by
  have empty : (Node.switch w).isFull = false := by simp [isFull, hs]
  have grows : (Node.switch w).Grows
      (.switch { w with cases := w.cases ++ [{ c with body := some b }] }) :=
    ⟨rfl, rfl, fun full => full⟩
  have free : ¬ Shut ([] ++ .switch w :: below) := not_shut (by simp) empty
  obtain (⟨-, shut⟩ | ⟨-, shut⟩ | jammed) | ⟨inner, middle, outer, aimed⟩ := h
  · obtain bad | ⟨bad, -⟩ := shut <;> cases bad
  · exact absurd shut free
  · exact .inl (jammed_replace_top grows jammed)
  · have finished : (switchCase { c with body := some b }).Follows Scope.Aims
        (.ofOpen (.switch w :: below)) := by
      refine .intro trivial fun d hd => ?_
      simp only [children, List.mem_append, Option.toList_some, List.map_cons, List.map_nil,
        List.mem_singleton] at hd
      obtain hd | rfl := hd
      · exact middle.inside d (List.mem_append_left _ hd)
      · exact inner
    rw [Scope.ofOpen_cons] at finished
    exact .inr ⟨outer.of_perm grows trivial (children_cases w _) finished, aimed⟩

end

/-- Only values are handed over. -/
structure Stock.Tidy (s : Stock) : Prop where
  loose : ∀ n ∈ s.loose, n.isOperand
  items : Nested s.items

theorem grows_expression (e : Expression) (tokens : List (Token Leaf)) :
    (Node.expression e).Grows (.expression (e.append tokens)) := ⟨rfl, rfl, fun full => full⟩

theorem Stock.Tidy.move {terms : Terms} (values : ∀ n, terms.handOver n → n.isOperand)
    {s t : Stock} (h : Move terms s t) (hs : s.Tidy) : t.Tidy := by
  obtain ⟨loose, items⟩ := hs
  have value {n : Node} (hn : n.isOperand) {σ : Scope} : n.Follows Scope.Aims σ :=
    follows_of_isOperand hn
  have leaf {n : Node} {σ : Scope} (own : σ.Aims n) (hc : n.children = []) :
      n.Follows Scope.Aims σ := .intro own (by simp [hc])
  have onTop {below : List Node} {e : Expression} {new : List (Token Leaf)}
      (h : Nested (.expression e :: below)) : Nested (.expression (e.append new) :: below) :=
    h.replace_top (grows_expression e new) fun _ => value rfl
  have tokens {above below : List Node} {e : Expression} {new : List (Token Leaf)}
      (h : Nested (above ++ .expression e :: below)) :
      Nested (above ++ .expression (e.append new) :: below) :=
    h.replace (grows_expression e new) fun _ => value rfl
  cases h with
  | start o =>
    exact ⟨loose, items.push (leaf (by cases o <;> trivial) (by cases o <;> rfl))⟩
  | startExit exit =>
    exact ⟨loose, items.push (leaf (by cases exit <;> rfl) (children_exit exit _ _))⟩
  | @rename name n n' below _ _ _ hn =>
    have grows : n.Grows n' := by
      cases n <;> cases hn <;> exact ⟨rfl, rfl, fun full => full⟩
    refine ⟨loose, items.replace_top grows fun outer => outer.of_fields grows ?_ ?_⟩
    · cases n <;> cases hn <;> trivial
    · cases n <;> cases hn <;> rfl
  | parameter =>
    refine ⟨loose, items.replace ⟨rfl, rfl, fun full => full⟩ fun outer => ?_⟩
    exact outer.of_fields ⟨rfl, rfl, fun full => full⟩ trivial rfl
  | literal | symbol => exact ⟨loose, tokens items⟩
  | operand ht =>
    exact ⟨loose, tokens (Nested.pop items (isOperand_of_tokens? ht))⟩
  | identifierToCall => exact ⟨loose, (Nested.pop items rfl).push (value rfl)⟩
  | splice hp =>
    refine ⟨loose, onTop (items.pop_all fun n hn => ?_)⟩
    obtain ⟨tokens, ht⟩ := Option.isSome_iff_exists.mp (hp n (List.mem_reverse.mp hn))
    exact isOperand_of_tokens? ht
  | place hn => exact ⟨loose, Nested.place items hn⟩
  | announceDefault ha =>
    have grows (w : Switch) : (Node.switch w).Grows (.switch { w with fallbackSeen := true }) :=
      ⟨rfl, rfl, by simp +contextual [isFull]⟩
    exact ⟨loose, items.replace (grows _) fun outer => outer.of_fields (grows _) trivial rfl⟩
  | fallback ha hw hseen => exact ⟨loose, Nested.fallback items ha hw hseen⟩
  | closeCase hseen => exact ⟨loose, Nested.closeCase items hseen⟩
  | firstValue =>
    rw [List.forall_mem_cons] at loose
    refine ⟨loose.2, items.push (.intro trivial fun c hc => ?_)⟩
    simp only [children, SwitchCase.first, List.map_cons, List.map_nil, Option.toList_none,
      List.append_nil, List.mem_singleton] at hc
    subst hc
    exact value rfl
  | @nextValue v c =>
    have grows : (switchCase c).Grows (switchCase { c with values := c.values ++ [v] }) :=
      ⟨rfl, rfl, fun full => full⟩
    rw [List.forall_mem_cons] at loose
    exact ⟨loose.2, items.replace_top grows fun outer =>
      outer.of_perm grows trivial (children_values c v) (value rfl)⟩
  | handOver taken ok =>
    have operands : ∀ n ∈ taken, n.isOperand := fun n hn => values n (ok n hn)
    refine ⟨List.forall_mem_append.mpr ⟨operands, loose⟩, items.pop_all fun n hn => ?_⟩
    exact operands n (List.mem_reverse.mp hn)
  | takeBack taken =>
    rw [List.forall_mem_append] at loose
    exact ⟨loose.2, items.push_all fun n hn => loose.1 n (List.mem_reverse.mp hn)⟩
  | forget lost =>
    rw [List.forall_mem_append] at loose
    exact ⟨loose.2, items⟩

theorem Moves.tidy {terms : Terms} (values : ∀ n, terms.handOver n → n.isOperand) {s : Stock}
    (h : Moves terms {} s) : s.Tidy := by
  induction h with
  | refl => exact ⟨by simp, .inr trivial⟩
  | tail _ move ih => exact ih.move values move

/-- A single open node cannot be stuck. -/
theorem Nested.follows {n : Node} (h : Nested [n]) : n.Follows Scope.Aims {} := by
  obtain (⟨-, shut⟩ | jammed) | aimed := h
  · exact shut.elim
  · exact jammed.elim
  · exact aimed.1

end StackCompiler
