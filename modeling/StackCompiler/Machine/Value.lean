import StackCompiler.Assembly.Instruction
import StackCompiler.Decimal.Layout
import StackCompiler.Decimal.Reader
import StackCompiler.Text.Blank
import StackCompiler.Text.Glyphless

/-!
Values of the machine and what its operators do with them.
-/

namespace StackCompiler.Machine

open Assembly (UnaryOp BinaryOp)

inductive Value where
  | number (x : Float)
  | str (s : String)
deriving Repr

/-- An operator was applied to values of the wrong kind, in the order of left and right. -/
structure Mismatch where
  mnemonic : String
  operands : List Value

namespace Value

/-- What is printed. -/
def text : Value → String
  | number x => Decimal.plain.write x
  | str s => s

/-- What error messages show: the kind of the value, and its text so that nothing is hidden. -/
def describe : Value → String
  | number x => "Number(" ++ Decimal.tagged.write x ++ ")"
  | str s => "Str(" ++ Text.quoted s ++ ")"

/-- Comparisons and logic answer with one and zero. -/
def truth (b : Bool) : Value := number (if b then 1 else 0)

/-- Zero and the empty text are false; what is not a number is true. -/
def isTruthy : Value → Bool
  | number x => x != 0
  | str s => s != ""

/-- Text between two quotes of one kind, or else a number. -/
def ofLiteral? (text : String) : Option Value :=
  let numeral := (Decimal.read? text).map number
  match text.toList with
  | quote :: rest =>
    if (quote = '"' ∨ quote = '\'') ∧ rest.getLast? = some quote then
      some (str (String.ofList rest.dropLast))
    else numeral
  | [] => numeral

/-- A line of input is a number if it is one between blanks, and otherwise the text without its
line end. -/
def ofInput (line : String) : Value :=
  let ends (c : Char) : Bool := c == '\r' || c == '\n'
  let cs := (line.toList.reverse.dropWhile ends).reverse
  match Decimal.read? (String.ofList (Text.trim cs)) with
  | some x => number x
  | none => str (String.ofList cs)

/-- Numbers are equal if they differ by less than the distance from one to the next float. -/
def close (x y : Float) : Bool := (x - y).abs < Float.ofBits 0x3cb0000000000000

/-- The same distance or more; two numbers without a difference are neither close nor apart. -/
def apart (x y : Float) : Bool := Float.ofBits 0x3cb0000000000000 ≤ (x - y).abs

def applyUnary (op : UnaryOp) (v : Value) : Except Mismatch Value :=
  match op, v with
  | .not, v => .ok (truth !v.isTruthy)
  | .neg, number x => .ok (number (-x))
  | .neg, str _ => .error ⟨op.mnemonic, [v]⟩

/-- Orders texts by their code points. -/
def applyBinary (op : BinaryOp) (left right : Value) : Except Mismatch Value :=
  match op, left, right with
  | .add, number x, number y => .ok (number (x + y))
  | .add, _, _ => .ok (str (left.text ++ right.text))
  | .and, _, _ => .ok (truth (left.isTruthy && right.isTruthy))
  | .or, _, _ => .ok (truth (left.isTruthy || right.isTruthy))
  | .sub, number x, number y => .ok (number (x - y))
  | .mul, number x, number y => .ok (number (x * y))
  | .div, number x, number y => .ok (number (x / y))
  | .mod, number x, number y => .ok (number (Decimal.remainder x y))
  | .eq, number x, number y => .ok (truth (close x y))
  | .neq, number x, number y => .ok (truth (apart x y))
  | .less, number x, number y => .ok (truth (x < y))
  | .lessEq, number x, number y => .ok (truth (x ≤ y))
  | .greater, number x, number y => .ok (truth (y < x))
  | .greaterEq, number x, number y => .ok (truth (y ≤ x))
  | .eq, str s, str t => .ok (truth (s == t))
  | .neq, str s, str t => .ok (truth (s != t))
  | .less, str s, str t => .ok (truth (s < t))
  | .lessEq, str s, str t => .ok (truth (s ≤ t))
  | .greater, str s, str t => .ok (truth (t < s))
  | .greaterEq, str s, str t => .ok (truth (t ≤ s))
  | _, _, _ => .error ⟨op.mnemonic, [left, right]⟩

end Value

def Mismatch.message (m : Mismatch) : String :=
  "`" ++ m.mnemonic ++ "` cannot be applied to " ++
    ", ".intercalate (m.operands.map Value.describe)

end StackCompiler.Machine
