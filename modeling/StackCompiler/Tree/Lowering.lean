import StackCompiler.Tree.Expression

/-!
Code for an expression on a stack of operands: the code of its operands and operators in evaluation
order, that of a call after that of its arguments. What the single pieces are is left open.
-/

namespace StackCompiler

/-- Pieces of code in some form `ω`. -/
structure Lowering (ω : Type) where
  identifier : String → ω
  constant : String → ω
  operator : Operator → ω
  /-- Takes the number of arguments and their code. -/
  call : (name : String) → (count : Nat) → (arguments : List ω) → List ω

/-- An operand has its own code. -/
def Step.code {ω : Type} (operator : Operator → ω) : Step (List ω) → List ω
  | .operand code => code
  | .apply op => [operator op]

namespace Lowering

variable {ω : Type} (target : Lowering ω)

mutual

def leaf : Leaf → List ω
  | .identifier i => [target.identifier i.name]
  | .constant c => [target.constant c.literal]
  | .call c => callCode c
termination_by structural l => l

def callCode : Call → List ω
  | ⟨_, name, args⟩ => target.call name args.length (arguments args)
termination_by structural c => c

/-- Arguments are evaluated from left to right. -/
def arguments : List Expression → List ω
  | [] => []
  | e :: es => expression e ++ arguments es
termination_by structural es => es

def expression : Expression → List ω
  | ⟨_, tokens⟩ => (evaluationOrder (tokenCode tokens)).flatMap (Step.code target.operator)
termination_by structural e => e

/-- Every operand is replaced by its code. -/
def tokenCode : List (Token Leaf) → List (Token (List ω))
  | [] => []
  | .leaf l :: tokens => .leaf (leaf l) :: tokenCode tokens
  | .operator op :: tokens => .operator op :: tokenCode tokens
  | .opening :: tokens => .opening :: tokenCode tokens
  | .closing :: tokens => .closing :: tokenCode tokens
termination_by structural tokens => tokens

end

/-- A missing expression has no code. -/
def value : Option Expression → List ω
  | some e => target.expression e
  | none => []

end Lowering

end StackCompiler
