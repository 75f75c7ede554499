import StackCompiler.Decimal.Layout
import StackCompiler.Decimal.Reader

/-!
Constants of expressions as literals of the machine: quoted text stays as it is, all else becomes a
decimal number, and what cannot be read is not a number.
-/

namespace StackCompiler.Assembly

/-- The value of a digit in some base, in either case of letters. -/
def digitValue? (base : Nat) (c : Char) : Option Nat :=
  let value :=
    if c.isDigit then c.toNat - '0'.toNat
    else if 'a' ≤ c ∧ c ≤ 'f' then c.toNat - 'a'.toNat + 10
    else if 'A' ≤ c ∧ c ≤ 'F' then c.toNat - 'A'.toNat + 10
    else base
  if value < base then some value else none

/-- Each digit is added by floating-point arithmetic, so many digits lose precision and do not
overflow. -/
def radixValue? (base : Nat) (digits : List Char) : Option Float :=
  if digits.isEmpty then none
  else
    digits.foldlM (fun value c => (digitValue? base c).map (value * base.toFloat + ·.toFloat)) 0

/-- Hexadecimal after `0x`, base four after `0q`, and decimal otherwise. Names of infinity and of
not-a-number are not decimal here. -/
def numericValue? (literal : String) : Option Float :=
  match literal.toList with
  | '0' :: 'x' :: digits => radixValue? 16 digits
  | '0' :: 'q' :: digits => radixValue? 4 digits
  | cs =>
    if (cs.dropWhile fun c => c == '+' || c == '-').head?.any Char.isAlpha then none
    else Decimal.read? literal

def decodeConstant (literal : String) : String :=
  match literal.toList.head? with
  | some '"' | some '\'' => literal
  | _ =>
    let value :=
      if literal = "true" then some 1
      else if literal = "false" then some 0
      else numericValue? literal
    match value with
    | some x => Decimal.plain.write x
    | none => "NaN"

end StackCompiler.Assembly
