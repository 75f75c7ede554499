/-!
Operators of expressions: their symbols and how tightly they bind.
-/

namespace StackCompiler

/-- Text that names no operator is kept, so that what comes of it can be marked. -/
inductive Operator where
  | equal | notEqual | greater | less | greaterOrEqual | lessOrEqual
  | add | subtract | multiply | divide | power | modulo | not | negate
  | other (symbol : String)
deriving Repr, DecidableEq

namespace Operator

def ofSymbol : String → Operator
  | "==" => equal
  | "!=" => notEqual
  | ">" => greater
  | "<" => less
  | ">=" => greaterOrEqual
  | "<=" => lessOrEqual
  | "+" => add
  | "-" => subtract
  | "*" => multiply
  | "/" => divide
  | "^" => power
  | "%" => modulo
  | "!" => not
  | "neg" => negate
  | symbol => other symbol

def symbol : Operator → String
  | equal => "=="
  | notEqual => "!="
  | greater => ">"
  | less => "<"
  | greaterOrEqual => ">="
  | lessOrEqual => "<="
  | add => "+"
  | subtract => "-"
  | multiply => "*"
  | divide => "/"
  | power => "^"
  | modulo => "%"
  | not => "!"
  | negate => "neg"
  | other symbol => symbol

/-- An operator of higher priority binds tighter, and an unrecognised one tightest of all. -/
def priority : Operator → Nat
  | equal | notEqual | greater | less | greaterOrEqual | lessOrEqual => 1
  | add | subtract => 2
  | multiply | divide => 4
  | power | modulo | not => 5
  | negate => 6
  | other _ => 0xffffffff

/-- Unary operators stand before their one operand. -/
def isUnary : Operator → Bool
  | not | negate => true
  | _ => false

def isOther : Operator → Bool
  | other _ => true
  | _ => false

end Operator

end StackCompiler
