import Mathlib.Logic.Relation
import StackCompiler.Proofs.Construction.Refusal
import StackCompiler.Proofs.Tree.Subtree

/-!
What the actions of a construction can do to the nodes. Every action, and so every script, is a
sequence of moves that open a node, change the text of one, put one inside of another, or hand nodes
over and take them back.
-/

namespace StackCompiler

/-- The open nodes, the innermost first, the nodes that were handed over, and the next number. -/
structure Stock where
  items : List Node := []
  loose : List Node := []
  nextId : Nat := 0

/-- What moves may do: the texts that they write into the tree, the nodes that they hand over, and
whether they open exits at all. Values of cases are handed over in any case. -/
structure Terms where
  text : String → Prop
  handOver : Node → Prop
  exits : Prop
  handOver_expression : ∀ e, handOver (.expression e)

/-- Moves by which anything may be handed over and opened. -/
def Terms.any (text : String → Prop) : Terms := ⟨text, fun _ => True, True, fun _ => trivial⟩

inductive Move (terms : Terms) : Stock → Stock → Prop where
  | start (o : Opening) {items loose k} :
      Move terms ⟨items, loose, k⟩ ⟨o.node k :: items, loose, k + 1⟩
  | startExit (exit : ExitKind) {items loose k} (ok : terms.exits) :
      Move terms ⟨items, loose, k⟩
        ⟨exit.node k ((items.find? (·.kind == exit.left)).map Node.id) :: items, loose, k + 1⟩
  | rename {name n n' below loose k} (ok : terms.text name)
      (hn : Construction.renamed? name n = some n') :
      Move terms ⟨n :: below, loose, k⟩ ⟨n' :: below, loose, k⟩
  | parameter {name above f below loose k} (ok : terms.text name) :
      Move terms ⟨above ++ .function f :: below, loose, k⟩
        ⟨above ++ .function { f with params := f.params ++ [name] } :: below, loose, k⟩
  | literal {text above e below loose k} (ok : terms.text text) :
      Move terms ⟨above ++ .expression e :: below, loose, k⟩
        ⟨above ++ .expression (e.append [.leaf (Construction.literalLeaf k text)]) :: below, loose,
          k + 1⟩
  | symbol {t : Token Leaf} {above e below loose k} (ht : t.isLeaf = false) :
      Move terms ⟨above ++ .expression e :: below, loose, k⟩
        ⟨above ++ .expression (e.append [t]) :: below, loose, k⟩
  | operand {n tokens above e below loose k} (ht : n.tokens? = some tokens) :
      Move terms ⟨n :: above ++ .expression e :: below, loose, k⟩
        ⟨above ++ .expression (e.append tokens) :: below, loose, k⟩
  | identifierToCall {i below loose k} :
      Move terms ⟨.identifier i :: below, loose, k⟩
        ⟨.call ⟨k, i.name, []⟩ :: below, loose, k + 1⟩
  | splice {parts : List Node} {e below loose k} (hp : ∀ n ∈ parts, n.tokens?.isSome) :
      Move terms ⟨parts.reverse ++ .expression e :: below, loose, k⟩
        ⟨.expression (e.append (parts.flatMap fun n => n.tokens?.getD [])) :: below, loose, k⟩
  | place {child parent n below loose k} (hn : parent.place child = some n) :
      Move terms ⟨child :: parent :: below, loose, k⟩ ⟨n :: below, loose, k⟩
  | announceDefault {above w below loose k} (ha : ∀ n ∈ above, Construction.switch? n = none) :
      Move terms ⟨above ++ .switch w :: below, loose, k⟩
        ⟨above ++ .switch { w with fallbackSeen := true } :: below, loose, k⟩
  | fallback {b above w below loose k} (ha : ∀ n ∈ above, Construction.switch? n = none)
      (hw : w.fallback = none) (hs : w.fallbackSeen = true) :
      Move terms ⟨.block b :: above ++ .switch w :: below, loose, k⟩
        ⟨above ++ .switch { w with fallback := some b } :: below, loose, k⟩
  | closeCase {b c w below loose k} (hs : w.fallbackSeen = false) :
      Move terms ⟨.block b :: .switchCase c :: .switch w :: below, loose, k⟩
        ⟨.switch { w with cases := w.cases ++ [{ c with body := some b }] } :: below, loose, k⟩
  | firstValue {v items loose k} (hi : items.any (·.kind == .switch)) :
      Move terms ⟨items, .expression v :: loose, k⟩
        ⟨.switchCase (.first k v) :: items, loose, k + 1⟩
  | nextValue {v c below loose k} :
      Move terms ⟨.switchCase c :: below, .expression v :: loose, k⟩
        ⟨.switchCase { c with values := c.values ++ [v] } :: below, loose, k⟩
  | handOver (taken : List Node) {left loose k} (ok : ∀ n ∈ taken, terms.handOver n) :
      Move terms ⟨taken.reverse ++ left, loose, k⟩ ⟨left, taken ++ loose, k⟩
  | takeBack (taken : List Node) {items loose k} :
      Move terms ⟨items, taken ++ loose, k⟩ ⟨taken.reverse ++ items, loose, k⟩
  | forget (lost : List Node) {items loose k} :
      Move terms ⟨items, lost ++ loose, k⟩ ⟨items, loose, k⟩

def Moves (terms : Terms) : Stock → Stock → Prop := Relation.ReflTransGen (Move terms)

theorem Stack.updateFirst_eq_some {α : Type} {f : α → Option α} {l m : List α}
    (h : Stack.updateFirst f l = some m) :
    ∃ above a b below, l = above ++ a :: below ∧ f a = some b ∧ m = above ++ b :: below ∧
      ∀ x ∈ above, f x = none := by
  induction l generalizing m with
  | nil => cases h
  | cons x rest ih =>
    simp only [Stack.updateFirst] at h
    split at h
    · next b hb =>
      cases h
      exact ⟨[], x, b, rest, rfl, hb, rfl, by simp⟩
    · next hx =>
      obtain ⟨r, hr, rfl⟩ := Option.map_eq_some_iff.mp h
      obtain ⟨above, a, b, below, rfl, hab, rfl, hn⟩ := ih hr
      exact ⟨x :: above, a, b, below, rfl, hab, rfl, by simpa using ⟨hx, hn⟩⟩

namespace Construction

variable {terms : Terms} {s t : Construction} {loose : List Node}

/-- The nodes of a construction together with those that were handed over before. -/
def stock (s : Construction) (loose : List Node) : Stock := ⟨s.items, loose, s.nextId⟩

theorem stock_eq {items : List Node} (h : s.items = items) :
    s.stock loose = ⟨items, loose, s.nextId⟩ := by rw [stock, h]

theorem stock_openExit (exit : ExitKind) : (s.openExit exit).stock loose =
    ⟨exit.node s.nextId ((s.items.find? (·.kind == exit.left)).map Node.id) :: s.items, loose,
      s.nextId + 1⟩ := by
  unfold openExit
  dsimp only
  split <;> rfl

theorem moves_openExit (exit : ExitKind) (ok : terms.exits) :
    Moves terms (s.stock loose) ((s.openExit exit).stock loose) := by
  rw [stock_openExit]
  exact .single (.startExit exit ok)

theorem moves_setName {name : String} (ok : terms.text name) :
    Moves terms (s.stock loose) ((s.setName name).stock loose) := by
  unfold setName
  split
  · exact .refl
  · next top below hs =>
    split
    · next n hn =>
      rw [stock_eq hs]
      exact .single (.rename ok hn)
    · exact .refl

theorem moves_addParameter {name : String} (ok : terms.text name) :
    Moves terms (s.stock loose) ((s.addParameter name).stock loose) := by
  unfold addParameter
  split
  · next items h =>
    obtain ⟨above, a, b, below, hs, hab, rfl, -⟩ := Stack.updateFirst_eq_some h
    cases a <;> cases hab
    rw [stock_eq hs]
    exact .single (.parameter ok)
  · exact .refl

theorem addTokens?_eq_some {tokens : List (Token Leaf)} {items items' : List Node}
    (h : addTokens? tokens items = some items') :
    ∃ above e below, items = above ++ .expression e :: below ∧
      items' = above ++ .expression (e.append tokens) :: below := by
  obtain ⟨above, a, b, below, rfl, hab, rfl, -⟩ := Stack.updateFirst_eq_some h
  cases a <;> cases hab
  exact ⟨above, _, below, rfl, rfl⟩

theorem moves_addTokens {tokens : List (Token Leaf)} {items : List Node} {k : Nat}
    (h : addTokens? tokens s.items = some items)
    (move : ∀ above e below, Move terms ⟨above ++ .expression e :: below, loose, s.nextId⟩
      ⟨above ++ .expression (e.append tokens) :: below, loose, k⟩) :
    Moves terms (s.stock loose) ⟨items, loose, k⟩ := by
  obtain ⟨above, e, below, hs, rfl⟩ := addTokens?_eq_some h
  rw [stock_eq hs]
  exact .single (move above e below)

theorem moves_appendLiteral {text : String} (ok : terms.text text) :
    Moves terms (s.stock loose) ((s.appendLiteral text).stock loose) := by
  unfold appendLiteral
  split
  · next items h => exact moves_addTokens h fun _ _ _ => .literal ok
  · exact .refl

theorem Token.isLeaf_ofSymbol (symbol : String) (unary : Bool) :
    (Token.ofSymbol symbol unary : Token Leaf).isLeaf = false := by
  unfold Token.ofSymbol
  split_ifs <;> rfl

theorem moves_appendOperator {symbol : String} {unary : Bool} :
    Moves terms (s.stock loose) ((s.appendOperator symbol unary).stock loose) := by
  unfold appendOperator
  split
  · next items h =>
    exact moves_addTokens h fun _ _ _ => .symbol (Token.isLeaf_ofSymbol symbol unary)
  · exact .refl

theorem tokens?_of_operand? {kind : NodeKind} {n : Node} {leaf : Leaf} {name : String}
    (h : operand? kind n = some (leaf, name)) : n.tokens? = some [.leaf leaf] := by
  unfold operand? at h
  split at h <;> cases h <;> rfl

theorem moves_appendTop (action : String) (expected : NodeKind) :
    Moves terms (s.stock loose) ((s.appendTop action expected).stock loose) := by
  unfold appendTop
  split
  · exact .refl
  · next top below hs =>
    split
    · next leaf name operand =>
      split
      · next items h =>
        obtain ⟨above, e, rest, rfl, rfl⟩ := addTokens?_eq_some h
        rw [stock_eq hs]
        exact .single (.operand (tokens?_of_operand? operand))
      · exact .refl
    · exact .refl

theorem moves_identifierToCall :
    Moves terms (s.stock loose) (s.identifierToCall.stock loose) := by
  unfold identifierToCall
  split
  · next i below hs =>
    rw [stock_eq hs]
    exact .single .identifierToCall
  · exact .refl

theorem moves_popExpression_none (h : s.popExpression = (none, t)) :
    Moves terms (s.stock loose) (t.stock loose) := by
  unfold popExpression at h
  split at h
  · cases h
  · obtain ⟨-, rfl⟩ := Prod.mk.inj h
    exact .refl

theorem moves_popExpression {e : Expression} (h : s.popExpression = (some e, t)) :
    Moves terms (s.stock loose) (t.stock (.expression e :: loose)) := by
  unfold popExpression at h
  split at h
  · next e below hs =>
    cases h
    rw [stock_eq hs]
    exact .single (.handOver [.expression e] (by simpa using terms.handOver_expression e))
  · cases h

theorem moves_beginCase {v : Expression} :
    Moves terms (s.stock (.expression v :: loose)) ((s.beginCase v).stock loose) := by
  unfold beginCase
  split
  · next c below hs =>
    rw [stock_eq hs]
    exact .single .nextValue
  · split
    · next hi => exact .single (.firstValue hi)
    · exact .single (.forget [.expression v])

theorem moves_announceDefault :
    Moves terms (s.stock loose) (s.announceDefault.stock loose) := by
  unfold announceDefault
  split
  · exact .refl
  · split
    · next items h =>
      obtain ⟨above, a, b, rest, hs, hab, rfl, ha⟩ := Stack.updateFirst_eq_some h
      cases a <;> cases hab
      rw [stock_eq hs]
      refine .single (.announceDefault fun n hn => ?_)
      have := ha n hn
      cases n <;> simp [withFallbackSeen?, switch?] at this ⊢
    · exact .refl

theorem moves_endCase : Moves terms (s.stock loose) (s.endCase.stock loose) := by
  unfold endCase
  split
  · exact .refl
  · next w b below hw hs =>
    rw [hs, List.findSome?_cons_of_isNone (by rfl)] at hw
    split
    · next hseen =>
      split
      · next items hnone h =>
        obtain ⟨above, a, c, rest, rfl, hac, rfl, ha⟩ := Stack.updateFirst_eq_some h
        have none_above : ∀ n ∈ above, switch? n = none := by
          intro n hn
          have := ha n hn
          cases n <;> simp [withFallback?, switch?] at this ⊢
        rw [List.findSome?_append, List.findSome?_eq_none_iff.mpr none_above] at hw
        cases a <;> cases hac
        cases hw
        rw [stock_eq hs]
        exact .single (.fallback none_above hnone hseen)
      · exact .refl
    · next hseen =>
      split
      · next c v rest =>
        cases hw
        rw [stock_eq hs]
        exact .single (.closeCase (by simpa using hseen))
      · exact .refl
  · exact .refl

theorem moves_attach : Moves terms (s.stock loose) (s.attach.stock loose) := by
  rw [attach_eq]
  split
  · exact .refl
  · exact .refl
  · next child parent below hs =>
    split
    · next n hn =>
      rw [stock_eq hs]
      exact .single (.place hn)
    · exact .refl

/-- Nodes are handed over from the top, and nothing else changes but the waypoint. -/
theorem rewind_ok {taken : List Node} (h : s.rewind = (.ok taken, t)) :
    s.items = taken.reverse ++ t.items ∧ t.nextId = s.nextId ∧ t.diagnostics = s.diagnostics ∧
      t.aborted = s.aborted := by
  unfold rewind at h
  split at h
  · cases h
  · split at h
    · next nodes hn =>
      cases h
      refine ⟨?_, rfl, rfl, rfl⟩
      unfold Trail.rewind at hn
      split at hn
      · cases hn; rfl
      · split at hn
        · cases hn
          simp [items]
        · cases hn
    · cases h

theorem moves_rewind {taken : List Node} (ok : ∀ n ∈ taken, terms.handOver n)
    (h : s.rewind = (.ok taken, t)) : Moves terms (s.stock loose) (t.stock (taken ++ loose)) := by
  obtain ⟨hs, hk, -⟩ := rewind_ok h
  rw [stock_eq hs, ← hk]
  exact .single (.handOver taken ok)

theorem moves_reattach (nodes : List Node) :
    Moves terms (s.stock (nodes ++ loose)) ((s.reattach nodes).stock loose) :=
  .single (.takeBack nodes)

theorem moves_forget (lost : List Node) :
    Moves terms (s.stock (lost ++ loose)) (s.stock loose) :=
  .single (.forget lost)

theorem moves_closeExpression {e : Expression} {below : List Node} {k : Nat} :
    Moves terms ⟨.expression e :: below, loose, k⟩ ⟨closeExpression e below, loose, k⟩ := by
  unfold closeExpression
  split
  · next parent below =>
    have merged : Move terms ⟨.expression e :: [] ++ .expression parent :: below, loose, k⟩
        ⟨[] ++ .expression (parent.append e.tokens) :: below, loose, k⟩ := .operand rfl
    exact .single merged
  · exact .refl

theorem moves_endExpression (h : s.endExpression = (.ok (), t)) :
    Moves terms (s.stock loose) (t.stock loose) := by
  rw [endExpression_eq] at h
  split at h
  · cases h
  · next parts back hr =>
    obtain ⟨hs, hk, -⟩ := rewind_ok hr
    split at h
    · cases h; exact .refl
    · next e below hp hb =>
      cases h
      rw [stock_eq hs, hb, ← hk]
      refine Relation.ReflTransGen.head (.splice fun n hn => ?_) moves_closeExpression
      have := List.find?_eq_none.mp hp n hn
      cases ht : n.tokens? <;> simp_all
    · cases h; exact .refl

end Construction

/-- Scripts hand nodes over and take them back by lines of their own, and never by such actions. -/
def Action.Within (terms : Terms) : Action → Prop
  | .name text | .parameter text | .literal text => terms.text text
  | .startSwitchExit | .startLoopExit => terms.exits
  | .popExpression | .beginCase _ | .rewind | .reattach _ => False
  | _ => True

theorem Construction.moves_perform {terms : Terms} {s t : Construction}
    {loose : List Node} {a : Action} {r : Reply} (ha : a.Within terms)
    (h : s.perform a = (r, t)) (hr : ∀ cause, r ≠ .failure cause) :
    Moves terms (s.stock loose) (t.stock loose) := by
  cases a with
  | start node => cases h; exact .single (.start node)
  | startSwitchExit | startLoopExit => cases h; exact moves_openExit _ ha
  | name text => cases h; exact moves_setName ha
  | parameter name => cases h; exact moves_addParameter ha
  | literal text => cases h; exact moves_appendLiteral ha
  | operator symbol unary => cases h; exact moves_appendOperator
  | identifierToken | callToken => cases h; exact moves_appendTop _ _
  | identifierToCall => cases h; exact moves_identifierToCall
  | endExpression =>
    simp only [perform] at h
    split at h
    · next hs => cases h; exact moves_endExpression hs
    · cases h; exact absurd rfl (hr _)
  | announceDefault => cases h; exact moves_announceDefault
  | endCase => cases h; exact moves_endCase
  | attach => cases h; exact moves_attach
  | waypoint => cases h; exact .refl
  | popExpression | beginCase _ | rewind | reattach _ => exact ha.elim

end StackCompiler
