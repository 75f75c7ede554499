import StackCompiler.Tree.Order

/-!
Expressions and calls. An expression is a list of infix tokens whose operands are identifiers,
constants and calls; a call has expressions as arguments.
-/

namespace StackCompiler

structure Identifier where
  id : Nat
  name : String := ""
deriving Repr, DecidableEq

/-- The literal is kept as it was written. -/
structure Constant where
  id : Nat
  literal : String
deriving Repr, DecidableEq

mutual

inductive Leaf where
  | identifier (i : Identifier)
  | constant (c : Constant)
  | call (c : Call)

structure Call where
  id : Nat
  name : String
  args : List Expression

/-- Tokens stand in source order, and nothing says that they make sense. -/
structure Expression where
  id : Nat
  tokens : List (Token Leaf)

end

/-- Functions that the machine has instructions for. -/
inductive Builtin where
  | print
  | read
deriving Repr, DecidableEq

/-- Underscores around the name do not count. -/
def Builtin.ofName? (name : String) : Option Builtin :=
  let bare := ((name.toList.dropWhile (· == '_')).reverse.dropWhile (· == '_')).reverse
  match String.ofList bare with
  | "print" => some .print
  | "read" => some .read
  | _ => none

def Call.builtin? (c : Call) : Option Builtin := Builtin.ofName? c.name

namespace Expression

/-- An expression opens without tokens. -/
def empty (id : Nat) : Expression := ⟨id, []⟩

def append (e : Expression) (tokens : List (Token Leaf)) : Expression :=
  { e with tokens := e.tokens ++ tokens }

def order (e : Expression) : List (Step Leaf) := evaluationOrder e.tokens

end Expression

end StackCompiler
