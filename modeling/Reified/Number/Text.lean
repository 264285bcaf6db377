import Reified.Decimal.Shortest
import Reified.Number.Basic

/-!
# The text of a number

Numbers are written with the fewest digits that read back, always in positional notation: no
exponent however large or small the number is, no point when there is no fraction, and a sign also
before zero.
-/

namespace Reified

namespace Decimal

/-- The decimal `d * 10 ^ k` in positional notation. -/
def positional (d : Nat) (k : Int) : String :=
  let digits := Nat.toDigits 10 d
  let zeros (n : Nat) : List Char := List.replicate n '0'
  if 0 ≤ k then
    String.ofList (digits ++ zeros k.toNat)
  else
    let places := (-k).toNat
    let padded := zeros (places + 1 - digits.length) ++ digits
    let point := padded.length - places
    String.ofList (padded.take point ++ '.' :: padded.drop point)

end Decimal

namespace Number

/-- The sign of a negative number. -/
def signText (negative : Bool) : String :=
  if negative then "-" else ""

/-- The number as it is printed. -/
def text (x : Number) : String :=
  match x.view with
  | .nan => "NaN"
  | .infinite negative => signText negative ++ "inf"
  | .finite negative m q =>
    signText negative ++
      if m = 0 then "0" else let (d, k) := Decimal.shortest m q; Decimal.positional d k

end Number

end Reified
