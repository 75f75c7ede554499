import StackCompiler.Decimal.Shortest

/-!
Ways to write a float: which numbers are written with an exponent, and whether a whole number shows
its fraction.
-/

namespace StackCompiler.Decimal

/-- Whether an exponent is used depends only on the power of ten of the leading digit. -/
structure Layout where
  wholeFraction : String
  scientific : Int → Bool

/-- Digits only, however large or small the number. -/
def plain : Layout := ⟨"", fun _ => false⟩

/-- Whole numbers end in `.0`; an exponent is used below `1e-4` and from `1e16` on. -/
def tagged : Layout := ⟨".0", fun e => e < -4 || 16 ≤ e⟩

/-- All digits with the point at its place, and a zero before a leading point. -/
def positional (wholeFraction : String) (digits : List Char) (exponent : Int) : String :=
  if 0 ≤ exponent then
    String.ofList (digits ++ List.replicate exponent.toNat '0') ++ wholeFraction
  else
    let places := (-exponent).toNat
    let padded := List.replicate (places + 1 - digits.length) '0' ++ digits
    let whole := padded.length - places
    String.ofList (padded.take whole ++ '.' :: padded.drop whole)

/-- One digit before the point, and no point if there is no other digit. -/
def exponential (digits : List Char) (leading : Int) : String :=
  let mantissa := match digits with
    | d :: e :: rest => d :: '.' :: e :: rest
    | _ => digits
  String.ofList mantissa ++ "e" ++ toString leading

/-- The sign of zero is kept and a NaN has none. -/
def Layout.write (l : Layout) (x : Float) : String :=
  match Binary.ofFloat x with
  | .nan => "NaN"
  | .infinite negative => if negative then "-inf" else "inf"
  | .finite negative significand exponent =>
    let numeral := shortest significand exponent
    let digits := (Nat.repr numeral.coefficient).toList
    let leading := numeral.exponent + digits.length - 1
    let magnitude :=
      if significand ≠ 0 ∧ l.scientific leading then exponential digits leading
      else positional l.wholeFraction digits numeral.exponent
    if negative then "-" ++ magnitude else magnitude

end StackCompiler.Decimal
