import StackCompiler.Decimal.Binary

/-!
Reading a float from decimal text: an optional sign and then either a name of infinity or of a
not-a-number, in any case of letters, or digits with an optional point and an optional exponent. No
blank and no other character may stand anywhere.
-/

namespace StackCompiler.Decimal

/-- An optional sign, and whether it is a minus. -/
def splitSign : List Char → Bool × List Char
  | '+' :: cs => (false, cs)
  | '-' :: cs => (true, cs)
  | cs => (false, cs)

/-- A digit counts by its distance from zero. -/
def digitsValue (digits : List Char) : Nat :=
  digits.foldl (fun n c => 10 * n + (c.toNat - '0'.toNat)) 0

/-- Nothing, or the exponent mark with a whole number that has at least one digit. -/
def exponent? : List Char → Option Int
  | [] => some 0
  | mark :: cs =>
    let (negative, digits) := splitSign cs
    if (mark = 'e' ∨ mark = 'E') ∧ digits ≠ [] ∧ digits.all Char.isDigit then
      some (if negative then -(digitsValue digits : Int) else digitsValue digits)
    else none

/-- The float nearest to `digits * 10 ^ exponent`. With so many powers of ten as the bounds name,
the answer is infinity or zero, and no power that large is computed. -/
def scaled (digits : List Char) (exponent : Int) : Float :=
  let n := digitsValue digits
  if n = 0 ∨ exponent < -(400 + digits.length : Int) then 0
  else if 400 < exponent then nearestFloat (Nat.pow 10 400) 1
  else nearestFloat (n * Nat.pow 10 exponent.toNat) (Nat.pow 10 (-exponent).toNat)

/-- Digits are needed before or after the point, and the point only between them if at all. -/
def unsigned? (cs : List Char) : Option Float :=
  let whole := cs.takeWhile Char.isDigit
  let rest := cs.dropWhile Char.isDigit
  let (fraction, tail) := match rest with
    | '.' :: more => (more.takeWhile Char.isDigit, more.dropWhile Char.isDigit)
    | _ => ([], rest)
  if whole.isEmpty && fraction.isEmpty then none
  else (exponent? tail).map fun e => scaled (whole ++ fraction) (e - fraction.length)

/-- Names are compared without regard to the case of ASCII letters. -/
def named? (cs : List Char) : Option Float :=
  match String.ofList (cs.map Char.toLower) with
  | "inf" | "infinity" => some (1 / 0)
  | "nan" => some (0 / 0)
  | _ => none

def read? (text : String) : Option Float :=
  let (negative, body) := splitSign text.toList
  ((named? body).or (unsigned? body)).map fun x => if negative then -x else x

end StackCompiler.Decimal
