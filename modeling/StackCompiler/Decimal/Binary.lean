/-!
Floats as exact binary fractions: what the bits of a float stand for, the float nearest to a given
fraction, and the exact remainder of two floats.
-/

namespace StackCompiler.Decimal

/-- A finite float is its sign and `significand * 2 ^ exponent`, both zeros having significand 0. -/
inductive Binary where
  | nan
  | infinite (negative : Bool)
  | finite (negative : Bool) (significand : Nat) (exponent : Int)
deriving Repr, DecidableEq

/-- The first bit of a significand of full length, which a float does not store. -/
def leadingOne : Nat := 0x10000000000000

/-- The sign has one bit, the biased exponent eleven and the fraction fifty-two; a biased exponent
of zero means that the significand has no leading one. -/
def Binary.ofFloat (x : Float) : Binary :=
  let bits := x.toBits.toNat
  let negative := bits / leadingOne / 2048 == 1
  let biased : Nat := bits / leadingOne % 2048
  let fraction := bits % leadingOne
  if biased = 2047 then if fraction = 0 then .infinite negative else .nan
  else if biased = 0 then .finite negative fraction (-1074)
  else .finite negative (leadingOne + fraction) ((biased : Int) - 1075)

/-- A half goes to the even neighbour. -/
def roundHalfEven (numerator denominator : Nat) : Nat :=
  let quotient := numerator / denominator
  let twice := 2 * (numerator % denominator)
  if twice < denominator || (twice == denominator && quotient % 2 == 0) then quotient
  else quotient + 1

/-- The exponent at which the fraction has fifty-three bits before the point, or the least one that
a float has. -/
def scaleExponent (numerator denominator : Nat) : Int :=
  let guess : Int := (numerator.log2 : Int) - denominator.log2 - 53
  let quotient := numerator * Nat.pow 2 (-guess).toNat / (denominator * Nat.pow 2 guess.toNat)
  max (-1074) (if quotient < 2 * leadingOne then guess else guess + 1)

/-- Fractions past the largest float go to infinity. A significand that rounds up to `2 ^ 53`
carries into the exponent field, which is the next binade. -/
def nearestFloat (numerator denominator : Nat) : Float :=
  if numerator = 0 then 0
  else
    let exponent := scaleExponent numerator denominator
    let significand := roundHalfEven (numerator * Nat.pow 2 (-exponent).toNat)
      (denominator * Nat.pow 2 exponent.toNat)
    let bits := (exponent + 1074).toNat * leadingOne + significand
    Float.ofBits (UInt64.ofNat (min bits (2047 * leadingOne)))

/-- Over the smaller of the two exponents both floats are whole, and so is their remainder. It has
no more bits than one of them, so its float is exact. -/
def remainder (x y : Float) : Float :=
  match Binary.ofFloat x, Binary.ofFloat y with
  | .finite negative m p, .finite _ n q =>
    if n = 0 then 0 / 0
    else
      let e := min p q
      let r := m * Nat.pow 2 (p - e).toNat % (n * Nat.pow 2 (q - e).toNat)
      let magnitude := nearestFloat (r * Nat.pow 2 e.toNat) (Nat.pow 2 (-e).toNat)
      if negative then -magnitude else magnitude
  | .finite .., .infinite _ => x
  | _, _ => 0 / 0

end StackCompiler.Decimal
