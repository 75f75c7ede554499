import StackCompiler.Tree.Label
import StackCompiler.Tree.Operator

/-!
Instructions of the stack machine and their text, one to a line. Operands come from the value stack,
from a variable or from a literal; results go to the stack or to a variable.
-/

namespace StackCompiler.Assembly

inductive UnaryOp where
  | not | neg
deriving Repr, DecidableEq

inductive BinaryOp where
  | add | sub | mul | div | mod | and | or | eq | neq | less | lessEq | greater | greaterEq
deriving Repr, DecidableEq

inductive Operand where
  | pop
  | slot (name : String)
  | literal (text : String)
deriving Repr, DecidableEq

inductive Target where
  | push
  | slot (name : String)
deriving Repr, DecidableEq

inductive Instruction where
  | comment (text : String)
  | label (l : Label)
  | mov (target : Target) (source : Operand)
  | unary (op : UnaryOp) (source : Operand) (target : Target)
  /-- The first operand is the right one. -/
  | binary (op : BinaryOp) (first second : Operand) (target : Target)
  | jump (l : Label)
  | jumpFalse (l : Label) (condition : Operand)
  | call (l : Label)
  | out
  | print (count : Nat)
  | read (count : Nat)
  /-- Stands for an operator that the machine does not have. -/
  | unknown (arity : Nat)
deriving Repr, DecidableEq

/-- A program; positions count from zero. -/
abbrev Code := List Instruction

def UnaryOp.mnemonic : UnaryOp → String
  | not => "!"
  | neg => "neg"

def BinaryOp.mnemonic : BinaryOp → String
  | add => "+"
  | sub => "-"
  | mul => "*"
  | div => "/"
  | mod => "%"
  | and => "&"
  | or => "|"
  | eq => "=="
  | neq => "!="
  | less => "<"
  | lessEq => "<="
  | greater => ">"
  | greaterEq => ">="

def UnaryOp.ofOperator? : Operator → Option UnaryOp
  | .not => some not
  | .negate => some neg
  | _ => none

/-- Power and the unrecognised operators have no instruction. -/
def BinaryOp.ofOperator? : Operator → Option BinaryOp
  | .add => some add
  | .subtract => some sub
  | .multiply => some mul
  | .divide => some div
  | .modulo => some mod
  | .equal => some eq
  | .notEqual => some neq
  | .less => some less
  | .lessOrEqual => some lessEq
  | .greater => some greater
  | .greaterOrEqual => some greaterEq
  | _ => none

def Operand.text : Operand → String
  | pop => "pop"
  | slot name => name
  | literal text => text

def Target.text : Target → String
  | push => "push"
  | slot name => name

namespace Instruction

def isUnknown : Instruction → Bool
  | unknown _ => true
  | _ => false

def isComment : Instruction → Bool
  | comment _ => true
  | _ => false

/-- The words of the instruction, which single blanks part. A comment is a word by itself. -/
def words : Instruction → List String
  | comment text => ["//", text]
  | label l => ["lbl", l.text]
  | mov target source => ["mov", target.text, source.text]
  | unary op source target => [op.mnemonic, source.text, target.text]
  | binary op first second target => [op.mnemonic, first.text, second.text, target.text]
  | jump l => ["jmp", l.text]
  | jumpFalse l condition => ["jf", l.text, condition.text]
  | call l => ["call", l.text]
  | out => ["out"]
  | print count => "prn" :: List.replicate count "pop"
  | read count => "read" :: List.replicate count "pop"
  | unknown arity => "UNKNOWN" :: List.replicate arity "pop" ++ ["push"]

def text (i : Instruction) : String := " ".intercalate i.words

end Instruction

namespace Code

/-- Some operator of the program has no instruction. -/
def hasUnknown (code : Code) : Bool := code.any Instruction.isUnknown

/-- Every line ends in a line feed. -/
def text (code : Code) : String := String.join (code.map fun i => i.text ++ "\n")

end Code

end StackCompiler.Assembly
