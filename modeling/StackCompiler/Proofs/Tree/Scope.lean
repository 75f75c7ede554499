import StackCompiler.Proofs.Tree.Subtree

/-!
The switch and the loop around a node, innermost first, and rules that the exits inside of them
follow.
-/

namespace StackCompiler

/-- Numbers of the innermost switch and of the innermost loop. -/
structure Scope where
  switch : Option Nat := none
  loop : Option Nat := none

namespace Scope

/-- The scope of what is inside the node. No function stands inside of a switch or a loop. -/
def enter (σ : Scope) : Node → Scope
  | .switch s => { σ with switch := some s.id }
  | .loop l => { σ with loop := some l.id }
  | _ => σ

/-- Every exit has something to leave. -/
def Shelters (σ : Scope) : Node → Prop
  | .switchExit _ => σ.switch.isSome
  | .loopExit _ => σ.loop.isSome
  | _ => True

/-- An exit leaves what is innermost around it, and has no target if there is nothing. -/
def Aims (σ : Scope) : Node → Prop
  | .switchExit e => e.target = σ.switch
  | .loopExit e => e.target = σ.loop
  | _ => True

/-- The scope inside the open nodes. -/
def ofOpen (items : List Node) : Scope where
  switch := (items.find? (·.kind == .switch)).map Node.id
  loop := (items.find? (·.kind == .loop)).map Node.id

/-- What an exit leaves. -/
def target (σ : Scope) : ExitKind → Option Nat
  | .switch => σ.switch
  | .loop => σ.loop

theorem target_ofOpen (exit : ExitKind) (items : List Node) :
    (ofOpen items).target exit = (items.find? (·.kind == exit.left)).map Node.id := by
  cases exit <;> rfl

theorem ofOpen_cons (n : Node) (items : List Node) :
    ofOpen (n :: items) = (ofOpen items).enter n := by
  cases n <;> rfl

theorem enter_congr {m n : Node} (σ : Scope) (hk : m.kind = n.kind) (hi : m.id = n.id) :
    σ.enter m = σ.enter n := by
  cases m <;> cases n <;> simp_all [enter, Node.kind, Node.id]

/-- Where there is something to leave in the one scope, there is in the other. -/
structure Covers (τ σ : Scope) : Prop where
  switch : σ.switch.isSome → τ.switch.isSome
  loop : σ.loop.isSome → τ.loop.isSome

theorem Covers.refl (σ : Scope) : σ.Covers σ := ⟨fun h => h, fun h => h⟩

theorem Covers.enter {τ σ : Scope} (h : τ.Covers σ) {m n : Node} (hk : m.kind = n.kind) :
    (τ.enter m).Covers (σ.enter n) := by
  cases n <;> cases m <;> cases hk <;> first
    | exact h
    | exact ⟨fun _ => rfl, h.loop⟩
    | exact ⟨h.switch, fun _ => rfl⟩

/-- What is around a node is around the tree or a node of it. -/
structure Within (τ σ : Scope) (n : Node) : Prop where
  switch : τ.switch = σ.switch ∨ ∃ w, .switch w ∈ n.subtree ∧ τ.switch = some w.id
  loop : τ.loop = σ.loop ∨ ∃ l, .loop l ∈ n.subtree ∧ τ.loop = some l.id

theorem Within.of_child {τ σ : Scope} {n c : Node} (h : τ.Within (σ.enter n) c)
    (hc : c ∈ n.children) : τ.Within σ n := by
  have below {m : Node} (hm : m ∈ c.subtree) : m ∈ n.subtree :=
    Node.mem_subtree_trans (Node.child_mem_subtree n.self_mem_subtree hc) hm
  constructor
  · obtain same | ⟨w, hw, ht⟩ := h.switch
    · cases n with
      | switch w => exact .inr ⟨w, Node.self_mem_subtree _, same⟩
      | _ => exact .inl same
    · exact .inr ⟨w, below hw, ht⟩
  · obtain same | ⟨l, hl, ht⟩ := h.loop
    · cases n with
      | loop l => exact .inr ⟨l, Node.self_mem_subtree _, same⟩
      | _ => exact .inl same
    · exact .inr ⟨l, below hl, ht⟩

end Scope

namespace Node

/-- Each node of the tree follows the rule in its scope. -/
inductive Follows (rule : Scope → Node → Prop) : Scope → Node → Prop where
  | intro {σ : Scope} {n : Node} (own : rule σ n)
      (inside : ∀ c ∈ n.children, Follows rule (σ.enter n) c) : Follows rule σ n

variable {rule : Scope → Node → Prop} {σ : Scope} {n : Node}

theorem follows_iff :
    n.Follows rule σ ↔ rule σ n ∧ ∀ c ∈ n.children, c.Follows rule (σ.enter n) :=
  ⟨fun ⟨own, inside⟩ => ⟨own, inside⟩, fun ⟨own, inside⟩ => ⟨own, inside⟩⟩

theorem Follows.own (h : n.Follows rule σ) : rule σ n := (follows_iff.mp h).1

theorem Follows.inside (h : n.Follows rule σ) :
    ∀ c ∈ n.children, c.Follows rule (σ.enter n) := (follows_iff.mp h).2

theorem Follows.of_mem {rule : Scope → Node → Prop} {n m : Node} {σ : Scope} (h : n.Follows rule σ)
    (hm : m ∈ n.subtree) : ∃ τ, rule τ m ∧ τ.Within σ n := by
  induction n using Node.induction generalizing σ with
  | step n ih =>
    rw [subtree_eq, List.mem_cons, List.mem_flatMap] at hm
    obtain rfl | ⟨c, hc, hm⟩ := hm
    · exact ⟨σ, h.own, .inl rfl, .inl rfl⟩
    · obtain ⟨τ, own, within⟩ := ih c hc (h.inside c hc) hm
      exact ⟨τ, own, within.of_child hc⟩

theorem Follows.shelters_of_covers (h : n.Follows Scope.Shelters σ) {τ : Scope}
    (hc : τ.Covers σ) : n.Follows Scope.Shelters τ := by
  induction h generalizing τ with
  | @intro σ n own inside ih =>
    refine .intro ?_ fun c hcn => ih c hcn (hc.enter rfl)
    cases n with
    | switchExit e => exact hc.switch own
    | loopExit e => exact hc.loop own
    | _ => trivial

end Node

end StackCompiler
