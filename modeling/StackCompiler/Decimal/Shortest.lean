import StackCompiler.Decimal.Binary

/-!
The shortest decimal numeral that reads back as a given float, and of those the nearest to it.
-/

namespace StackCompiler.Decimal

/-- The number `coefficient * 10 ^ exponent`. -/
structure Numeral where
  coefficient : Nat
  exponent : Int
deriving Repr, DecidableEq

/-- The numbers that round to one float, over a common denominator: all between `low` and `high`,
and these two as well if the range is closed. -/
structure Range where
  low : Nat
  value : Nat
  high : Nat
  denominator : Nat
  closed : Bool

/-- Half a unit in the last place belongs to the float on either side, except that the lower
neighbour of a power of two is twice as near. The ends round to the even significand. -/
def Range.ofBinary (significand : Nat) (exponent : Int) : Range :=
  let scale := Nat.pow 2 (exponent - 2).toNat
  let below := if significand = leadingOne then 1 else 2
  { low := (4 * significand - below) * scale
    value := 4 * significand * scale
    high := (4 * significand + 2) * scale
    denominator := Nat.pow 2 (2 - exponent).toNat
    closed := significand % 2 == 0 }

/-- The multiple of `10 ^ k` in the range that is nearest to the value, the upper one on a tie. If
any multiple is in the range, one of the two next to the value is. -/
def Range.onGrid (r : Range) (k : Int) : Option Nat :=
  let up := Nat.pow 10 (-k).toNat
  let unit := r.denominator * Nat.pow 10 k.toNat
  let below := r.value * up / unit
  let inside (n : Nat) : Bool :=
    if r.closed then r.low * up ≤ n * unit && n * unit ≤ r.high * up
    else r.low * up < n * unit && n * unit < r.high * up
  let lowerNearer := 2 * (r.value * up % unit) < unit
  if inside below && (lowerNearer || !inside (below + 1)) then some below
  else if inside (below + 1) then some (below + 1)
  else none

/-- Goes from coarse grids to fine ones, so the first hit has the fewest digits. -/
def Range.coarsest (r : Range) : Nat → Int → Numeral
  | 0, k => ⟨r.value * Nat.pow 10 (-k).toNat / (r.denominator * Nat.pow 10 k.toNat), k⟩
  | fuel + 1, k =>
    match r.onGrid k with
    | some n => ⟨n, k⟩
    | none => r.coarsest fuel (k - 1)

/-- A power of ten above the value: a binary digit is worth less than `30103 / 100000` decimal
ones. -/
def Range.topExponent (r : Range) : Int :=
  ((r.value.log2 : Int) + 1 - r.denominator.log2) * 30103 / 100000 + 1

/-- Seventeen digits always suffice and the first grid is at most three too coarse. -/
def shortest (significand : Nat) (exponent : Int) : Numeral :=
  if significand = 0 then ⟨0, 0⟩
  else
    let r := Range.ofBinary significand exponent
    r.coarsest 24 r.topExponent

end StackCompiler.Decimal
