import StackCompiler.Tree.Operator

/-!
From infix to evaluation order. Operands keep their order; an operator comes after its operands, as
its priority and the parentheses say. Operators of one priority group to the left, and no list of
tokens is refused: a closing parenthesis without a partner ends every pending operator, an opening
one without a partner is ignored.
-/

namespace StackCompiler

/-- A token of an infix expression with operands of type `α`. -/
inductive Token (α : Type) where
  | leaf (value : α)
  | operator (op : Operator)
  | opening
  | closing
deriving Repr, DecidableEq

def Token.isLeaf {α : Type} : Token α → Bool
  | .leaf _ => true
  | _ => false

/-- A parenthesis is a token of its own, and a minus before an operand is a negation. -/
def Token.ofSymbol {α : Type} (symbol : String) (unary : Bool) : Token α :=
  if symbol = "(" then .opening
  else if symbol = ")" then .closing
  else if symbol = "-" ∧ unary then .operator .negate
  else .operator (Operator.ofSymbol symbol)

/-- A step of the evaluation on a stack of operands. -/
inductive Step (α : Type) where
  | operand (value : α)
  | apply (op : Operator)
deriving Repr, DecidableEq

def Step.map {α β : Type} (f : α → β) : Step α → Step β
  | .operand a => .operand (f a)
  | .apply op => .apply op

/-- What waits for its right operand or for its closing parenthesis. -/
inductive Pending where
  | operator (op : Operator)
  | opening
deriving Repr, DecidableEq

namespace Pending

/-- The operators on top that bind at least as tightly, up to an opening parenthesis, and the
rest. -/
def splitTighter (priority : Nat) : List Pending → List Operator × List Pending
  | .operator op :: rest =>
    if priority ≤ op.priority then
      let (ops, left) := splitTighter priority rest
      (op :: ops, left)
    else ([], .operator op :: rest)
  | waiting => ([], waiting)

/-- The operators since the latest opening parenthesis, and what stands below it. -/
def splitGroup : List Pending → List Operator × List Pending
  | [] => ([], [])
  | .opening :: rest => ([], rest)
  | .operator op :: rest =>
    let (ops, left) := splitGroup rest
    (op :: ops, left)

/-- All operators, from the top down. -/
def operators : List Pending → List Operator
  | [] => []
  | .opening :: rest => operators rest
  | .operator op :: rest => op :: operators rest

end Pending

/-- The steps for the tokens that follow, with what waits from before. -/
def orderFrom {α : Type} : List Pending → List (Token α) → List (Step α)
  | waiting, [] => (Pending.operators waiting).map .apply
  | waiting, .leaf a :: tokens => .operand a :: orderFrom waiting tokens
  | waiting, .opening :: tokens => orderFrom (.opening :: waiting) tokens
  | waiting, .closing :: tokens =>
    let (ops, left) := Pending.splitGroup waiting
    ops.map .apply ++ orderFrom left tokens
  | waiting, .operator op :: tokens =>
    if op.isUnary then orderFrom (.operator op :: waiting) tokens
    else
      let (ops, left) := Pending.splitTighter op.priority waiting
      ops.map .apply ++ orderFrom (.operator op :: left) tokens

/-- The order in which a stack evaluates the expression. -/
def evaluationOrder {α : Type} (tokens : List (Token α)) : List (Step α) := orderFrom [] tokens

end StackCompiler
