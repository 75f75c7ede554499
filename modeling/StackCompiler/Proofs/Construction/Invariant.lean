import StackCompiler.Proofs.Construction.Move

/-!
Properties that every node of a tree has, at whatever stage of the construction: it is enough that a
new node has the property, and that a node keeps it when one of its fields changes.
-/

namespace StackCompiler

/-- The ways in which a field of a node changes. -/
structure Kept (allowed : String → Prop) (P : Node → Prop) : Prop where
  start : ∀ o k, P (Opening.node o k)
  exit : ∀ (exit : ExitKind) k target, P (exit.node k target)
  rename : ∀ {name n n'}, allowed name → Construction.renamed? name n = some n' → P n → P n'
  parameter : ∀ {name f}, allowed name → P (.function f) →
    P (.function { f with params := f.params ++ [name] })
  literal : ∀ {text k e}, allowed text → P (.expression e) →
    P (.expression (e.append [.leaf (Construction.literalLeaf k text)]))
  named : ∀ {text k}, allowed text → P (.identifier ⟨k, text⟩)
  symbol : ∀ {t : Token Leaf} {e}, t.isLeaf = false → P (.expression e) →
    P (.expression (e.append [t]))
  tokens : ∀ {n : Node} {tokens e}, n.tokens? = some tokens → P n → P (.expression e) →
    P (.expression (e.append tokens))
  call : ∀ {i k}, P (.identifier i) → P (.call ⟨k, i.name, []⟩)
  place : ∀ {parent child n : Node}, parent.place child = some n → P parent → P child → P n
  announced : ∀ {w : Switch}, P (.switch w) → P (.switch { w with fallbackSeen := true })
  fallback : ∀ {w : Switch} {b}, w.fallback = none → w.fallbackSeen = true → P (.block b) →
    P (.switch w) → P (.switch { w with fallback := some b })
  caseBody : ∀ {c : SwitchCase} {b}, P (.block b) → P (.switchCase c) →
    P (.switchCase { c with body := some b })
  case : ∀ {w : Switch} {c : SwitchCase}, c.body.isSome → P (.switchCase c) → P (.switch w) →
    P (.switch { w with cases := w.cases ++ [c] })
  firstValue : ∀ {v k}, P (.expression v) → P (.switchCase (.first k v))
  nextValue : ∀ {v} {c : SwitchCase}, P (.expression v) → P (.switchCase c) →
    P (.switchCase { c with values := c.values ++ [v] })

namespace Node

variable {P : Node → Prop}

/-- A property of all nodes of a tree. -/
def Every (P : Node → Prop) (n : Node) : Prop := ∀ m ∈ n.subtree, P m

theorem every_iff {n : Node} : n.Every P ↔ P n ∧ ∀ c ∈ n.children, c.Every P := by
  unfold Every
  rw [subtree_eq]
  simp only [List.mem_cons, forall_eq_or_imp, List.mem_flatMap, forall_exists_index, and_imp]
  exact and_congr_right fun _ => ⟨fun h c hc m hm => h m c hc hm, fun h m c hc hm => h c hc m hm⟩

theorem Every.self {n : Node} (h : n.Every P) : P n := (every_iff.mp h).1

theorem Every.child {n c : Node} (h : n.Every P) (hc : c ∈ n.children) : c.Every P :=
  (every_iff.mp h).2 c hc

/-- Only fields that are no children have changed. -/
theorem Every.of_fields {m n : Node} (h : n.Every P) (hp : P m) (hc : m.children = n.children) :
    m.Every P := by
  rw [every_iff, hc]
  exact ⟨hp, fun c => h.child⟩

/-- One child has come to those that were there. -/
theorem Every.of_perm {m n c : Node} (h : n.Every P) (hk : c.Every P) (hp : P m)
    (hc : m.children.Perm (n.children ++ [c])) : m.Every P := by
  rw [every_iff]
  refine ⟨hp, fun d hd => ?_⟩
  obtain hd | hd := List.mem_append.mp (hc.mem_iff.mp hd)
  · exact h.child hd
  · exact List.mem_singleton.mp hd ▸ hk

theorem every_tokens {n c : Node} {tokens : List (Token Leaf)} (h : n.Every P)
    (ht : n.tokens? = some tokens) (hc : c ∈ tokens.filterMap Token.node?) : c.Every P := by
  cases n <;> cases ht
  · exact h.child hc
  · simp only [List.filterMap_cons, Token.node?, Leaf.node?, List.filterMap_nil,
      List.mem_singleton] at hc
    exact hc ▸ h
  · simp only [List.filterMap_cons, Token.node?, Leaf.node?, List.filterMap_nil,
      List.mem_singleton] at hc
    exact hc ▸ h

theorem Every.append {e : Expression} {tokens : List (Token Leaf)}
    (h : (expression e).Every P) (hp : P (expression (e.append tokens)))
    (ht : ∀ c ∈ tokens.filterMap Token.node?, c.Every P) :
    (expression (e.append tokens)).Every P := by
  rw [every_iff]
  refine ⟨hp, fun c hc => ?_⟩
  simp only [children, Expression.append, List.filterMap_append, List.mem_append] at hc
  exact hc.elim h.child (ht c)

end Node

/-- A property of all nodes, open or handed over, and of all below them. -/
def Stock.Every (P : Node → Prop) (s : Stock) : Prop := ∀ n ∈ s.items ++ s.loose, n.Every P

variable {terms : Terms} {P : Node → Prop}

open Node in
theorem Kept.splice (kept : Kept terms.text P) {parts : List Node} {e : Expression}
    (hp : ∀ n ∈ parts, n.tokens?.isSome) (hparts : ∀ n ∈ parts, n.Every P)
    (he : (expression e).Every P) :
    (expression (e.append (parts.flatMap fun n => n.tokens?.getD []))).Every P := by
  induction parts generalizing e with
  | nil =>
    have same : e.append [] = e := by cases e; simp [Expression.append]
    rw [List.flatMap_nil, same]
    exact he
  | cons n parts ih =>
    simp only [List.mem_cons, forall_eq_or_imp] at hp hparts
    obtain ⟨tokens, ht⟩ := Option.isSome_iff_exists.mp hp.1
    have first : (expression (e.append tokens)).Every P :=
      he.append (kept.tokens ht hparts.1.self he.self) fun c hc => every_tokens hparts.1 ht hc
    simpa [Expression.append, ht] using ih hp.2 hparts.2 first

open Node in
theorem Kept.move (kept : Kept terms.text P) {s t : Stock} (h : Move terms s t) (hs : s.Every P) :
    t.Every P := by
  have leaf {n : Node} (hp : P n) (hc : n.children = []) : n.Every P := by
    rw [every_iff, hc]
    exact ⟨hp, by simp⟩
  cases h <;> simp only [Stock.Every, List.mem_append, List.mem_cons, List.mem_reverse, or_imp,
    forall_and, forall_eq] at hs ⊢
  case start o items loose k =>
    exact ⟨⟨leaf (kept.start o k) (by cases o <;> rfl), hs.1⟩, hs.2⟩
  case startExit exit items loose k ok =>
    exact ⟨⟨leaf (kept.exit exit k _) (children_exit exit k _), hs.1⟩, hs.2⟩
  case rename n n' below loose k ok hn =>
    have named := kept.rename ok hn hs.1.1.self
    have same : n'.children = n.children := by cases n <;> cases hn <;> rfl
    exact ⟨⟨hs.1.1.of_fields named same, hs.1.2⟩, hs.2⟩
  case parameter name above f below loose k ok =>
    obtain ⟨⟨ha, hf, hb⟩, hl⟩ := hs
    exact ⟨⟨ha, hf.of_fields (kept.parameter ok hf.self) rfl, hb⟩, hl⟩
  case literal text above e below loose k ok =>
    obtain ⟨⟨ha, he, hb⟩, hl⟩ := hs
    refine ⟨⟨ha, he.append (kept.literal ok he.self) fun c hc => ?_, hb⟩, hl⟩
    unfold Construction.literalLeaf at hc
    split_ifs at hc
    · simp only [List.filterMap_cons, Token.node?, Leaf.node?, List.filterMap_nil,
        List.mem_singleton] at hc
      exact hc ▸ leaf (kept.named ok) rfl
    · cases hc
  case symbol t above e below loose k ht =>
    obtain ⟨⟨ha, he, hb⟩, hl⟩ := hs
    refine ⟨⟨ha, he.append (kept.symbol ht he.self) fun c hc => ?_, hb⟩, hl⟩
    cases t <;> first | cases hc | cases ht
  case operand n tokens above e below loose k ht =>
    obtain ⟨⟨⟨hn, ha⟩, he, hb⟩, hl⟩ := hs
    exact ⟨⟨ha, he.append (kept.tokens ht hn.self he.self) fun c => every_tokens hn ht, hb⟩, hl⟩
  case identifierToCall i below loose k =>
    exact ⟨⟨leaf (kept.call hs.1.1.self) rfl, hs.1.2⟩, hs.2⟩
  case splice parts e below loose k hp =>
    exact ⟨⟨kept.splice hp hs.1.1 hs.1.2.1, hs.1.2.2⟩, hs.2⟩
  case place child parent n below loose k hn =>
    obtain ⟨⟨hc, hp, hb⟩, hl⟩ := hs
    exact ⟨⟨hp.of_perm hc (kept.place hn hp.self hc.self) (children_place hn), hb⟩, hl⟩
  case announceDefault above w below loose k ha =>
    obtain ⟨⟨hab, hw, hb⟩, hl⟩ := hs
    exact ⟨⟨hab, hw.of_fields (kept.announced hw.self) rfl, hb⟩, hl⟩
  case fallback b above w below loose k ha hnone hseen =>
    obtain ⟨⟨⟨hblock, hab⟩, hw, hb⟩, hl⟩ := hs
    have filled := kept.fallback hnone hseen hblock.self hw.self
    exact ⟨⟨hab, hw.of_perm hblock filled (children_fallback b hnone), hb⟩, hl⟩
  case closeCase b c w below loose k hseen =>
    obtain ⟨⟨hblock, hc, hw, hb⟩, hl⟩ := hs
    have finished : (switchCase { c with body := some b }).Every P := by
      rw [every_iff]
      refine ⟨kept.caseBody hblock.self hc.self, fun d hd => ?_⟩
      simp only [children, List.mem_append, Option.toList_some, List.map_cons, List.map_nil,
        List.mem_singleton] at hd
      obtain hd | rfl := hd
      · exact hc.child (List.mem_append_left _ hd)
      · exact hblock
    have joined := kept.case rfl finished.self hw.self
    exact ⟨⟨hw.of_perm finished joined (children_cases w _), hb⟩, hl⟩
  case firstValue v items loose k hi =>
    obtain ⟨hitems, hv, hl⟩ := hs
    have new : (switchCase (.first k v)).Every P := by
      rw [every_iff]
      refine ⟨kept.firstValue hv.self, fun d hd => ?_⟩
      simp only [children, SwitchCase.first, List.map_cons, List.map_nil, Option.toList_none,
        List.append_nil, List.mem_singleton] at hd
      exact hd ▸ hv
    exact ⟨⟨new, hitems⟩, hl⟩
  case nextValue v c below loose k =>
    obtain ⟨⟨hc, hb⟩, hv, hl⟩ := hs
    have valued := kept.nextValue hv.self hc.self
    exact ⟨⟨hc.of_perm hv valued (children_values c v), hb⟩, hl⟩
  case handOver taken left loose k ok => exact ⟨hs.1.2, hs.1.1, hs.2⟩
  case takeBack taken items loose k => exact ⟨⟨hs.2.1, hs.1⟩, hs.2.2⟩
  case forget lost items loose k => exact ⟨hs.1, hs.2.2⟩

theorem Kept.moves (kept : Kept terms.text P) {s : Stock} (h : Moves terms {} s) : s.Every P := by
  induction h with
  | refl => simp [Stock.Every]
  | tail _ move ih => exact kept.move move ih

end StackCompiler
