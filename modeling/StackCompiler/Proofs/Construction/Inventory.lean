import StackCompiler.Proofs.Construction.Identity

/-!
What there is altogether in the open nodes and in those that were handed over: nodes by kind and
number, and constants. A move adds at most what it numbers, and nothing gets lost but what was
handed over and the body of a case that gets another one.
-/

namespace StackCompiler

/-- Nodes that stand for values come and go, and only the constants in them are accounted for. -/
inductive Holding where
  | node (kind : NodeKind) (id : Nat)
  | constant (c : Constant)
deriving Repr, DecidableEq

def Holding.id : Holding → Nat
  | node _ id => id
  | constant c => c.id

def Token.holding? : Token Leaf → Option Holding
  | .leaf (.constant c) => some (.constant c)
  | _ => none

namespace Node

def ownHoldings : Node → List Holding
  | expression e => e.tokens.filterMap Token.holding?
  | identifier _ | call _ => []
  | n => [.node n.kind n.id]

def holdings (n : Node) : List Holding := n.collect ownHoldings

def tokenHoldings (tokens : List (Token Leaf)) : List Holding :=
  tokens.filterMap Token.holding? ++ (tokens.filterMap Token.node?).flatMap holdings

theorem holdings_eq (n : Node) : n.holdings = n.ownHoldings ++ n.children.flatMap holdings :=
  collect_eq ownHoldings n

theorem holdings_expression (e : Expression) : (expression e).holdings = tokenHoldings e.tokens :=
  holdings_eq (expression e)

variable {x : Holding}

theorem mem_tokenHoldings_append (s t : List (Token Leaf)) :
    x ∈ tokenHoldings (s ++ t) ↔ x ∈ tokenHoldings s ∨ x ∈ tokenHoldings t := by
  simp only [tokenHoldings, List.filterMap_append, List.flatMap_append, List.mem_append]
  exact or_or_or_comm

theorem mem_holdings_append (e : Expression) (tokens : List (Token Leaf)) :
    x ∈ (expression (e.append tokens)).holdings ↔
      x ∈ (expression e).holdings ∨ x ∈ tokenHoldings tokens := by
  rw [holdings_expression, holdings_expression]
  exact mem_tokenHoldings_append e.tokens tokens

/-- What becomes tokens of an expression keeps its holdings. -/
theorem mem_tokenHoldings {n : Node} {tokens : List (Token Leaf)} (h : n.tokens? = some tokens) :
    x ∈ tokenHoldings tokens ↔ x ∈ n.holdings := by
  cases n <;> cases h
  · rw [holdings_expression]
  · simp [tokenHoldings, Token.node?, Leaf.node?, Token.holding?]
  · simp [tokenHoldings, Token.node?, Leaf.node?, Token.holding?]

theorem mem_tokenHoldings_parts {parts : List Node} (h : ∀ n ∈ parts, n.tokens?.isSome) :
    x ∈ tokenHoldings (parts.flatMap fun n => n.tokens?.getD []) ↔ ∃ n ∈ parts, x ∈ n.holdings := by
  induction parts with
  | nil => simp [tokenHoldings]
  | cons n parts ih =>
    rw [List.forall_mem_cons] at h
    obtain ⟨tokens, ht⟩ := Option.isSome_iff_exists.mp h.1
    simp [mem_tokenHoldings_append, ht, mem_tokenHoldings ht, ih h.2]

/-- A child that comes to the others brings its holdings. -/
theorem mem_holdings_of_perm {m n c : Node} (hc : m.children.Perm (n.children ++ [c]))
    (hm : m.ownHoldings = n.ownHoldings) : x ∈ m.holdings ↔ x ∈ n.holdings ∨ x ∈ c.holdings := by
  rw [holdings_eq m, holdings_eq n, hm]
  simp [(hc.flatMap_right holdings).mem_iff, or_assoc]

theorem holdings_of_no_children {n : Node} (hc : n.children = []) : n.holdings = n.ownHoldings := by
  rw [holdings_eq, hc, List.flatMap_nil, List.append_nil]

theorem holdings_exit (exit : ExitKind) (k : Nat) (target : Option Nat) :
    (exit.node k target).holdings = [.node (exit.node k target).kind k] := by
  rw [holdings_of_no_children (children_exit exit k target)]
  cases exit <;> rfl

theorem holdings_call (k : Nat) (name : String) : (call ⟨k, name, []⟩).holdings = [] :=
  holdings_of_no_children rfl

theorem holdings_identifier (i : Identifier) : (identifier i).holdings = [] :=
  holdings_of_no_children rfl

/-- A case is not without its first value. -/
theorem mem_holdings_first (k : Nat) (v : Expression) : x ∈ (switchCase (.first k v)).holdings ↔
    x = .node .switchCase k ∨ x ∈ (expression v).holdings := by
  rw [holdings_eq]
  simp [ownHoldings, children, SwitchCase.first, kind, Node.id]

/-- A case that gets a body keeps all but the body that it had. -/
theorem mem_holdings_body (c : SwitchCase) (b : Block) :
    x ∈ (switchCase { c with body := some b }).holdings ∨
        (∃ old, c.body = some old ∧ x ∈ (block old).holdings) ↔
      x ∈ (switchCase c).holdings ∨ x ∈ (block b).holdings := by
  rw [holdings_eq (switchCase _), holdings_eq (switchCase c)]
  simp [ownHoldings, children, kind, Node.id]
  grind

/-- The text that marks a variable is none of a constant. -/
theorem tokenHoldings_literal (k : Nat) (text : String) :
    tokenHoldings [.leaf (Construction.literalLeaf k text)] =
      if text.toList.head? = some '_' then [] else [.constant ⟨k, text⟩] := by
  unfold Construction.literalLeaf
  split_ifs
  · simp [tokenHoldings, Token.holding?, Token.node?, Leaf.node?, holdings_identifier]
  · rfl

theorem holdings_renamed {name : String} {m n : Node} (h : Construction.renamed? name m = some n) :
    n.holdings = m.holdings := by
  cases m <;> cases h <;> exact collect_of_fields rfl rfl

theorem ownHoldings_place {parent child n : Node} (h : parent.place child = some n) :
    n.ownHoldings = parent.ownHoldings := by
  unfold place at h
  split at h
  case h_11 b child =>
    obtain ⟨s, -, rfl⟩ := Option.map_eq_some_iff.mp h
    rfl
  all_goals first
    | (cases h; rfl)
    | (split at h <;> cases h <;> rfl)
    | cases h

theorem id_of_mem_ownHoldings_start {o : Opening} {k : Nat} (h : x ∈ (o.node k).ownHoldings) :
    x.id = k := by
  cases o <;> simp [Opening.node, ownHoldings, Expression.empty] at h <;> subst h <;> rfl

end Node

namespace Stock

variable {s t : Stock}

def holdings (s : Stock) : List Holding := (s.items ++ s.loose).flatMap Node.holdings

theorem mem_holdings {x : Holding} : x ∈ s.holdings ↔
    (∃ n ∈ s.items, x ∈ n.holdings) ∨ ∃ n ∈ s.loose, x ∈ n.holdings := by
  simp only [holdings, List.flatMap_append, List.mem_append, List.mem_flatMap]

/-- Tokens come to what there was. -/
theorem mem_holdings_tokens {x : Holding} {above below loose : List Node} {e : Expression}
    {tokens : List (Token Leaf)} {k k' : Nat} :
    x ∈ holdings ⟨above ++ .expression (e.append tokens) :: below, loose, k'⟩ ↔
      x ∈ Node.tokenHoldings tokens ∨ x ∈ holdings ⟨above ++ .expression e :: below, loose, k⟩ := by
  simp only [mem_holdings, List.mem_append, List.mem_cons]
  grind [Node.mem_holdings_append]

/-- What a move may take out of account. -/
def Loses (s : Stock) (x : Holding) : Prop :=
  (∃ n ∈ s.loose, x ∈ n.holdings) ∨
    ∃ c b, .switchCase c ∈ s.items ∧ c.body = some b ∧ x ∈ (Node.block b).holdings

/-- What comes has the next number, and what goes was nowhere that is safe. -/
structure Accounts (s t : Stock) : Prop where
  numbers : s.nextId ≤ t.nextId
  gained : ∀ x ∈ t.holdings, x ∈ s.holdings ∨ s.nextId ≤ x.id ∧ x.id < t.nextId
  kept : ∀ x ∈ s.holdings, x ∈ t.holdings ∨ s.Loses x

theorem Accounts.same (hk : t.nextId = s.nextId) (h : ∀ x, x ∈ t.holdings ↔ x ∈ s.holdings) :
    s.Accounts t where
  numbers := Nat.le_of_eq hk.symm
  gained x hx := .inl ((h x).mp hx)
  kept x hx := .inl ((h x).mpr hx)

theorem Accounts.opened (new : List Holding) (hk : t.nextId = s.nextId + 1)
    (hn : ∀ x ∈ new, x.id = s.nextId) (h : ∀ x, x ∈ t.holdings ↔ x ∈ new ∨ x ∈ s.holdings) :
    s.Accounts t where
  numbers := by omega
  gained x hx := by
    obtain hx | hx := (h x).mp hx
    · have := hn x hx
      exact .inr (by omega)
    · exact .inl hx
  kept x hx := .inl ((h x).mpr (.inr hx))

end Stock

/-- No move takes anything out of account but by overwriting the body of a case or by forgetting
what was handed over. -/
theorem Move.accounts {terms : Terms} {s t : Stock} (h : Move terms s t) : s.Accounts t := by
  cases h
  case start o items loose k =>
    have new := Node.holdings_of_no_children (n := o.node k) (by cases o <;> rfl)
    refine .opened (o.node k).ownHoldings rfl (fun _ => Node.id_of_mem_ownHoldings_start) ?_
    intro x
    simp [Stock.mem_holdings, new, or_assoc]
  case startExit exit items loose k ok =>
    refine .opened (exit.node k ((items.find? (·.kind == exit.left)).map Node.id)).holdings rfl
      (fun x hx => ?_) fun x => ?_
    · rw [Node.holdings_exit, List.mem_singleton] at hx
      exact hx ▸ rfl
    · simp [Stock.mem_holdings, or_assoc]
  case rename hn =>
    refine .same rfl fun x => ?_
    simp [Stock.mem_holdings, Node.holdings_renamed hn]
  case parameter name above f below loose k ok =>
    have kept : (Node.function { f with params := f.params ++ [name] }).holdings =
        (Node.function f).holdings := Node.collect_of_fields rfl rfl
    refine .same rfl fun x => ?_
    simp [Stock.mem_holdings, or_and_right, exists_or, kept]
  case literal text above e below loose k ok =>
    refine .opened (Node.tokenHoldings [.leaf (Construction.literalLeaf k text)]) rfl
      (fun x hx => ?_) fun x => Stock.mem_holdings_tokens
    rw [Node.tokenHoldings_literal] at hx
    split_ifs at hx
    · cases hx
    · rw [List.mem_singleton.mp hx]
      rfl
  case symbol t above e below loose k ht =>
    have new : Node.tokenHoldings [t] = [] := by cases t <;> first | rfl | cases ht
    refine .same rfl fun x => ?_
    rw [Stock.mem_holdings_tokens (k := k), new]
    simp
  case operand n tokens above e below loose k ht =>
    have token := fun x => Node.mem_tokenHoldings (x := x) ht
    refine .same rfl fun x => ?_
    simp only [Stock.mem_holdings, List.mem_append, List.mem_cons, List.cons_append]
    grind [Node.mem_holdings_append]
  case identifierToCall i below loose k =>
    refine .opened [] rfl (by simp) fun x => ?_
    simp [Stock.mem_holdings, Node.holdings_identifier, Node.holdings_call]
  case splice parts e below loose k hp =>
    have tokens := fun x => Node.mem_tokenHoldings_parts (x := x) hp
    refine .same rfl fun x => ?_
    simp only [Stock.mem_holdings, List.mem_append, List.mem_cons, List.mem_reverse]
    grind [Node.mem_holdings_append]
  case place child parent n below loose k hn =>
    have sum := fun x =>
      Node.mem_holdings_of_perm (x := x) (Node.children_place hn) (Node.ownHoldings_place hn)
    refine .same rfl fun x => ?_
    simp only [Stock.mem_holdings, List.mem_cons]
    grind
  case announceDefault above w below loose k ha =>
    have kept : (Node.switch { w with fallbackSeen := true }).holdings = (Node.switch w).holdings :=
      Node.collect_of_fields rfl rfl
    refine .same rfl fun x => ?_
    simp [Stock.mem_holdings, or_and_right, exists_or, kept]
  case fallback b above w below loose k ha hw hs =>
    have sum := fun x => Node.mem_holdings_of_perm (x := x) (Node.children_fallback b hw) rfl
    refine .same rfl fun x => ?_
    simp only [Stock.mem_holdings, List.mem_append, List.mem_cons, List.cons_append]
    grind
  case closeCase b c w below loose k hs =>
    have sum := fun x => Node.mem_holdings_of_perm (x := x)
      (Node.children_cases w { c with body := some b }) rfl
    have body := fun x => Node.mem_holdings_body (x := x) c b
    refine ⟨Nat.le_refl _, fun x hx => ?_, fun x hx => ?_⟩
    · simp only [Stock.mem_holdings, List.mem_cons] at hx ⊢
      grind
    · simp only [Stock.mem_holdings, Stock.Loses, List.mem_cons] at hx ⊢
      grind
  case firstValue v items loose k hi =>
    have first := fun x => Node.mem_holdings_first (x := x) k v
    refine .opened [.node .switchCase k] rfl (by simp [Holding.id]) fun x => ?_
    simp only [Stock.mem_holdings, List.mem_cons]
    grind
  case nextValue v c below loose k =>
    have sum := fun x => Node.mem_holdings_of_perm (x := x) (Node.children_values c v) rfl
    refine .same rfl fun x => ?_
    simp only [Stock.mem_holdings, List.mem_cons]
    grind
  case handOver taken left loose k ok =>
    refine .same rfl fun x => ?_
    simp only [Stock.mem_holdings, List.mem_append, List.mem_reverse]
    grind
  case takeBack taken items loose k =>
    refine .same rfl fun x => ?_
    simp only [Stock.mem_holdings, List.mem_append, List.mem_reverse]
    grind
  case forget lost items loose k =>
    refine ⟨Nat.le_refl _, fun x hx => ?_, fun x hx => ?_⟩
    · simp only [Stock.mem_holdings, List.mem_append] at hx ⊢
      grind
    · simp only [Stock.mem_holdings, Stock.Loses, List.mem_append] at hx ⊢
      grind

/-- Over any number of moves nothing is gained but what was numbered in between. -/
theorem Moves.gained {terms : Terms} {s t : Stock} (h : Moves terms s t) :
    s.nextId ≤ t.nextId ∧
      ∀ x ∈ t.holdings, x ∈ s.holdings ∨ s.nextId ≤ x.id ∧ x.id < t.nextId := by
  induction h with
  | refl => exact ⟨Nat.le_refl _, fun x hx => .inl hx⟩
  | tail _ move ih =>
    obtain ⟨numbers, gained⟩ := ih
    have accounts := move.accounts
    have later := accounts.numbers
    refine ⟨by omega, fun x hx => ?_⟩
    obtain hx | hx := accounts.gained x hx
    · obtain hx | hx := gained x hx
      · exact .inl hx
      · exact .inr (by omega)
    · exact .inr (by omega)

/-- A value has no node in it that is none. -/
theorem Node.not_mem_holdings_of_isOperand {n : Node} (h : n.isOperand) (kind : NodeKind)
    (id : Nat) : .node kind id ∉ n.holdings := by
  induction n using Node.induction with
  | step n ih =>
    rw [holdings_eq, List.mem_append, not_or, List.mem_flatMap]
    refine ⟨?_, fun ⟨c, hc, hx⟩ => ih c hc (isOperand_children h hc) hx⟩
    cases n with
    | expression e =>
      rw [ownHoldings, List.mem_filterMap]
      rintro ⟨token, -, ht⟩
      unfold Token.holding? at ht
      split at ht <;> cases ht
    | identifier i | call c => exact List.not_mem_nil
    | _ => cases h

theorem Node.isOperand_expression (e : Expression) : (Node.expression e).isOperand = true := rfl

/-- Moves that hand over only values. -/
def Terms.values : Terms where
  text _ := True
  handOver n := n.isOperand = true
  exits := True
  handOver_expression := Node.isOperand_expression

/-- Nothing that is no value can get lost. -/
structure Stock.Secure (s : Stock) : Prop where
  open_cases : ∀ c, .switchCase c ∈ s.items → c.body = none
  values : ∀ n ∈ s.loose, n.isOperand = true

theorem Stock.Secure.not_loses {s : Stock} (h : s.Secure) (kind : NodeKind) (id : Nat) :
    ¬ s.Loses (.node kind id) := by
  rintro (⟨n, hn, hx⟩ | ⟨c, b, hc, hb, -⟩)
  · exact n.not_mem_holdings_of_isOperand (h.values n hn) kind id hx
  · rw [h.open_cases c hc] at hb
    cases hb

theorem Move.secure {s t : Stock} (h : Move .values s t) (hs : s.Secure) : t.Secure := by
  obtain ⟨cases, values⟩ := hs
  constructor
  · intro c hc
    cases h <;> simp only [List.mem_append, List.mem_cons, List.mem_reverse, reduceCtorEq, false_or,
      Node.switchCase.injEq] at hc cases
    case start o items loose k =>
      obtain hc | hc := hc
      · cases o <;> cases hc
      · exact cases c hc
    case startExit exit items loose k ok =>
      obtain hc | hc := hc
      · cases exit <;> cases hc
      · exact cases c hc
    case rename n n' below loose k ok hn =>
      obtain rfl | hc := hc
      · cases n <;> cases hn
      · exact cases c (.inr hc)
    case place child parent n below loose k hn =>
      obtain rfl | hc := hc
      · exact (Node.place_switchCase hn).elim
      · exact cases c (.inr (.inr hc))
    case firstValue v items loose k hi =>
      obtain rfl | hc := hc
      · rfl
      · exact cases c hc
    case nextValue v c' below loose k =>
      obtain rfl | hc := hc
      · exact cases c' (.inl rfl)
      · exact cases c (.inr hc)
    case takeBack taken items loose k =>
      obtain hc | hc := hc
      · cases values _ (List.mem_append_left _ hc)
      · exact cases c hc
    all_goals grind
  · intro n hn
    cases h <;> simp only [List.mem_append, List.mem_cons, Terms.values] at * <;> grind

/-- Nodes that are no values stay, wherever the moves put them. -/
theorem Moves.retains {s t : Stock} (h : Moves .values s t) (hs : s.Secure) :
    t.Secure ∧ ∀ kind id, .node kind id ∈ s.holdings → .node kind id ∈ t.holdings := by
  induction h with
  | refl => exact ⟨hs, fun _ _ hx => hx⟩
  | tail _ move ih =>
    obtain ⟨secure, kept⟩ := ih
    refine ⟨move.secure secure, fun kind id hx => ?_⟩
    exact (move.accounts.kept _ (kept kind id hx)).resolve_right (secure.not_loses kind id)

namespace Construction

variable {s : Construction} {e : Expression}

/-- An open expression takes what is appended, or one that is open inside of it does. -/
theorem addTokens?_of_mem (tokens : List (Token Leaf)) {items : List Node}
    (h : .expression e ∈ items) : ∃ items', addTokens? tokens items = some items' := by
  induction items with
  | nil => cases h
  | cons n items ih =>
    rw [addTokens?, Stack.updateFirst]
    split
    · exact ⟨_, rfl⟩
    · next no =>
      obtain rfl | h := List.mem_cons.mp h
      · cases no
      · obtain ⟨items', hi⟩ := ih h
        exact ⟨n :: items', congrArg (Option.map (n :: ·)) hi⟩

/-- A text that does not name a variable becomes a constant with the next number. -/
theorem holdings_appendLiteral {text : String} (h : text.toList.head? ≠ some '_')
    (loose : List Node) (fed : .expression e ∈ s.items) :
    ((s.appendLiteral text).stock loose).nextId = s.nextId + 1 ∧
      ∀ x, x ∈ ((s.appendLiteral text).stock loose).holdings ↔
        x = .constant ⟨s.nextId, text⟩ ∨ x ∈ (s.stock loose).holdings := by
  obtain ⟨items', hi⟩ := addTokens?_of_mem [.leaf (literalLeaf s.nextId text)] fed
  have appended : (s.appendLiteral text).stock loose = ⟨items', loose, s.nextId + 1⟩ := by
    rw [appendLiteral, hi]
    rfl
  obtain ⟨above, e, below, items, rfl⟩ := addTokens?_eq_some hi
  rw [appended, stock_eq items]
  refine ⟨rfl, fun x => ?_⟩
  rw [Stock.mem_holdings_tokens (k := s.nextId), Node.tokenHoldings_literal, if_neg h,
    List.mem_singleton]

end Construction

end StackCompiler
