import StackCompiler.Proofs.Tree.Subtree
import StackCompiler.Tree.Lowering

/-!
Facts about the evaluation order of any list of tokens, well-formed or not.
-/

namespace StackCompiler

section

variable {α β : Type}

/-- What happens at one token: the steps that come at once, and what waits afterwards. -/
def advance (waiting : List Pending) : Token α → List (Step α) × List Pending
  | .leaf a => ([.operand a], waiting)
  | .opening => ([], .opening :: waiting)
  | .closing => ((Pending.splitGroup waiting).1.map .apply, (Pending.splitGroup waiting).2)
  | .operator op =>
    if op.isUnary then ([], .operator op :: waiting)
    else ((Pending.splitTighter op.priority waiting).1.map .apply,
      .operator op :: (Pending.splitTighter op.priority waiting).2)

theorem orderFrom_cons (waiting : List Pending) (token : Token α) (tokens : List (Token α)) :
    orderFrom waiting (token :: tokens) =
      (advance waiting token).1 ++ orderFrom (advance waiting token).2 tokens := by
  cases token with
  | leaf a | opening | closing => rfl
  | operator op =>
    rw [orderFrom, advance]
    split
    · rfl
    · rfl

def Token.map (f : α → β) : Token α → Token β
  | .leaf a => .leaf (f a)
  | .operator op => .operator op
  | .opening => .opening
  | .closing => .closing

theorem advance_map (f : α → β) (waiting : List Pending) (token : Token α) :
    advance waiting (token.map f) =
      ((advance waiting token).1.map (Step.map f), (advance waiting token).2) := by
  have applied (ops : List Operator) :
      (ops.map Step.apply).map (Step.map f) = ops.map Step.apply := List.map_map
  cases token with
  | leaf a | opening => rfl
  | closing => simp only [Token.map, advance, applied]
  | operator op =>
    rw [Token.map, advance, advance]
    split
    · rfl
    · simp only [applied]

/-- The order does not depend on what the operands are. -/
theorem orderFrom_map (f : α → β) (waiting : List Pending) (tokens : List (Token α)) :
    orderFrom waiting (tokens.map (Token.map f)) = (orderFrom waiting tokens).map (Step.map f) := by
  induction tokens generalizing waiting with
  | nil => simp [orderFrom, Step.map]
  | cons token tokens ih =>
    rw [List.map_cons, orderFrom_cons, orderFrom_cons, advance_map, ih, List.map_append]

theorem operand_mem_advance {a : α} {waiting : List Pending} {token : Token α} :
    .operand a ∈ (advance waiting token).1 ↔ token = .leaf a := by
  cases token with
  | leaf b => simp [advance, eq_comm]
  | opening | closing => simp [advance]
  | operator op =>
    rw [advance]
    split
    · simp
    · simp

/-- Operands are neither made up nor changed. -/
theorem operand_mem_orderFrom {a : α} {waiting : List Pending} {tokens : List (Token α)} :
    .operand a ∈ orderFrom waiting tokens ↔ .leaf a ∈ tokens := by
  induction tokens generalizing waiting with
  | nil => simp [orderFrom]
  | cons token tokens ih =>
    rw [orderFrom_cons, List.mem_append, operand_mem_advance, ih, List.mem_cons, eq_comm]

/-- Tokens act on those behind them only through what they leave waiting. -/
theorem orderFrom_append (waiting : List Pending) (tokens : List (Token α)) : ∃ first left,
    ∀ rest, orderFrom waiting (tokens ++ rest) = first ++ orderFrom left rest := by
  induction tokens generalizing waiting with
  | nil => exact ⟨[], waiting, fun _ => rfl⟩
  | cons token tokens ih =>
    obtain ⟨first, left, reads⟩ := ih (advance waiting token).2
    refine ⟨(advance waiting token).1 ++ first, left, ?_⟩
    intro rest
    rw [List.cons_append, orderFrom_cons, reads, List.append_assoc]

end

namespace Lowering

variable {ω : Type} (target : Lowering ω)

theorem tokenCode_eq_map (tokens : List (Token Leaf)) :
    target.tokenCode tokens = tokens.map (Token.map target.leaf) := by
  induction tokens with
  | nil => rfl
  | cons token tokens ih => cases token <;> simp [tokenCode, Token.map, ih]

/-- The steps are found first, and their code is put together afterwards. -/
theorem expression_eq (e : Expression) : target.expression e =
    e.order.flatMap fun step => (step.map target.leaf).code target.operator := by
  obtain ⟨id, tokens⟩ := e
  rw [expression, tokenCode_eq_map, evaluationOrder, orderFrom_map, List.flatMap_map]
  rfl

theorem arguments_eq (args : List Expression) :
    target.arguments args = args.flatMap target.expression := by
  induction args with
  | nil => rfl
  | cons e es ih => rw [arguments, List.flatMap_cons, ih]

theorem callCode_eq (c : Call) :
    target.callCode c = target.call c.name c.args.length (c.args.flatMap target.expression) := by
  obtain ⟨id, name, args⟩ := c
  rw [callCode, arguments_eq]

/-- The code of one lowering is related to that of another one if their pieces are. -/
structure Relates {ω' : Type} (R : List ω → List ω' → Prop) (target : Lowering ω)
    (target' : Lowering ω') : Prop where
  nil : R [] []
  append : ∀ {a b a' b'}, R a a' → R b b' → R (a ++ b) (a' ++ b')
  identifier : ∀ name, R [target.identifier name] [target'.identifier name]
  constant : ∀ literal, R [target.constant literal] [target'.constant literal]
  operator : ∀ op, R [target.operator op] [target'.operator op]
  call : ∀ name count {arguments arguments'}, R arguments arguments' →
    R (target.call name count arguments) (target'.call name count arguments')

section

variable {target} {ω' : Type} {target' : Lowering ω'} {R : List ω → List ω' → Prop}

theorem Relates.flatMap (h : Relates R target target') {α : Type} {as : List α} {f : α → List ω}
    {g : α → List ω'} (hfg : ∀ a ∈ as, R (f a) (g a)) : R (as.flatMap f) (as.flatMap g) := by
  induction as with
  | nil => exact h.nil
  | cons a as ih =>
    exact h.append (hfg a List.mem_cons_self) (ih fun b hb => hfg b (List.mem_cons_of_mem a hb))

theorem Relates.node (h : Relates R target target') (n : Node) :
    (∀ e, n = .expression e → R (target.expression e) (target'.expression e)) ∧
      ∀ c, n = .call c → R (target.callCode c) (target'.callCode c) := by
  induction n using Node.induction with
  | step n ih =>
    constructor
    · rintro e rfl
      rw [expression_eq, expression_eq]
      refine h.flatMap fun step hs => ?_
      cases step with
      | apply op => exact h.operator op
      | operand l =>
        have token : .leaf l ∈ e.tokens := operand_mem_orderFrom.mp hs
        cases l with
        | identifier i => exact h.identifier i.name
        | constant k => exact h.constant k.literal
        | call c => exact (ih (.call c) (List.mem_filterMap.mpr ⟨_, token, rfl⟩)).2 c rfl
    · rintro c rfl
      rw [callCode_eq, callCode_eq]
      refine h.call c.name c.args.length (h.flatMap fun e he => ?_)
      exact (ih (.expression e) (List.mem_map.mpr ⟨e, he, rfl⟩)).1 e rfl

theorem Relates.expression (h : Relates R target target') (e : Expression) :
    R (target.expression e) (target'.expression e) := (h.node (.expression e)).1 e rfl

theorem Relates.callCode (h : Relates R target target') (c : Call) :
    R (target.callCode c) (target'.callCode c) := (h.node (.call c)).2 c rfl

theorem Relates.value (h : Relates R target target') (e : Option Expression) :
    R (target.value e) (target'.value e) := by
  cases e with
  | none => exact h.nil
  | some e => exact h.expression e

end

/-- The pieces of one lowering are those of another one, seen through a function. -/
structure Maps {ω' : Type} (f : ω → ω') (target : Lowering ω) (target' : Lowering ω') : Prop where
  identifier : ∀ name, f (target.identifier name) = target'.identifier name
  constant : ∀ literal, f (target.constant literal) = target'.constant literal
  operator : ∀ op, f (target.operator op) = target'.operator op
  call : ∀ name count arguments,
    (target.call name count arguments).map f = target'.call name count (arguments.map f)

variable {target} {ω' : Type} {f : ω → ω'} {target' : Lowering ω'}

theorem Maps.relates (h : Maps f target target') :
    Relates (fun code code' => code.map f = code') target target' where
  nil := rfl
  append := by
    rintro a b _ _ rfl rfl
    exact List.map_append
  identifier name := congrArg (fun piece => [piece]) (h.identifier name)
  constant literal := congrArg (fun piece => [piece]) (h.constant literal)
  operator op := congrArg (fun piece => [piece]) (h.operator op)
  call := by
    rintro name count arguments _ rfl
    exact h.call name count arguments

theorem Maps.expression (h : Maps f target target') (e : Expression) :
    (target.expression e).map f = target'.expression e := h.relates.expression e

theorem Maps.callCode (h : Maps f target target') (c : Call) :
    (target.callCode c).map f = target'.callCode c := h.relates.callCode c

theorem Maps.value (h : Maps f target target') (e : Option Expression) :
    (target.value e).map f = target'.value e := h.relates.value e

end Lowering

end StackCompiler
