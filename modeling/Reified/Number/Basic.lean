/-!
# Numbers

The numbers of the language are IEEE 754 doubles. A `Number` is given by its 64 bits, so equality of
data tells `0` from `-0` and one not-a-number pattern from another; the comparison that programs see
is `Number.same`.

## Main definitions

* `Number.view` — the value that the bits stand for
* `Number.ofFraction` — the number `± r * 2 ^ q`, for an `r` of at most 53 bits
* `Number.whole?` — the natural number that a number is, if it is one
* `Number.rem` — the remainder of the division rounded toward zero, computed exactly
-/

namespace Reified

/-- An IEEE 754 double, given by its bits. -/
structure Number where
  /-- Sign, eleven exponent bits and fifty-two fraction bits, most significant first. -/
  bits : UInt64
  deriving DecidableEq, Inhabited

namespace Number

/-- What the bits of a number stand for. -/
inductive View where
  | nan
  | infinite (negative : Bool)
  /-- The value `mantissa * 2 ^ exponent`, with its sign. -/
  | finite (negative : Bool) (mantissa : Nat) (exponent : Int)
  deriving DecidableEq

/-- The sign bit is set. -/
def negative (x : Number) : Bool :=
  x.bits.toNat.testBit 63

/-- The value of a number. A biased exponent of zero stands for the same scale as one, but without
the leading mantissa bit. -/
def view (x : Number) : View :=
  let fraction : Nat := x.bits.toNat % Nat.pow 2 52
  let biased : Nat := x.bits.toNat / Nat.pow 2 52 % Nat.pow 2 11
  if biased = 2047 then
    if fraction = 0 then .infinite x.negative else .nan
  else if biased = 0 then .finite x.negative fraction (-1074)
  else .finite x.negative (fraction + Nat.pow 2 52) ((biased : Int) - 1075)

/-! ## The arithmetic of doubles -/

/-- The double that the bits describe. -/
def toFloat (x : Number) : Float :=
  Float.ofBits x.bits

/-- A double by its bits. -/
def ofFloat (x : Float) : Number :=
  ⟨x.toBits⟩

instance : OfNat Number 0 := ⟨⟨0⟩⟩

instance : Add Number := ⟨fun x y => ofFloat (x.toFloat + y.toFloat)⟩
instance : Sub Number := ⟨fun x y => ofFloat (x.toFloat - y.toFloat)⟩
instance : Mul Number := ⟨fun x y => ofFloat (x.toFloat * y.toFloat)⟩
instance : Div Number := ⟨fun x y => ofFloat (x.toFloat / y.toFloat)⟩

/-- Numeric equality: the two zeros are the same, and not-a-number is not even itself. -/
def same (x y : Number) : Bool :=
  x.toFloat == y.toFloat

/-- Strictly less, false as soon as one side is not a number. -/
def less (x y : Number) : Bool :=
  x.toFloat < y.toFloat

/-- Less or equal, false as soon as one side is not a number. -/
def lessEqual (x y : Number) : Bool :=
  x.toFloat ≤ y.toFloat

/-! ## Whole numbers -/

/-- The natural number that `x` is, or `none` when `x` is negative, has a fraction, is infinite or
is not a number. Negative zero is the number zero. -/
def whole? (x : Number) : Option Nat :=
  match x.view with
  | .finite negative mantissa exponent =>
    if mantissa = 0 then some 0
    else if negative then none
    else if 0 ≤ exponent then some (mantissa * Nat.pow 2 exponent.toNat)
    else
      let unit := Nat.pow 2 (-exponent).toNat
      if mantissa % unit = 0 then some (mantissa / unit) else none
  | _ => none

/-! ## Remainder -/

/-- The sign bit alone. -/
def signBits (negative : Bool) : Nat :=
  if negative then Nat.pow 2 63 else 0

/-- The number `± r * 2 ^ q`, for `r < 2 ^ 53` and `-1074 ≤ q` such that it is in range. The
fraction field of a normal number lacks the leading bit, which the exponent field then supplies. -/
def ofFraction (negative : Bool) (r : Nat) (q : Int) : Number :=
  if r = 0 then ⟨.ofNat (signBits negative)⟩
  else
    let lead := q + r.log2
    if lead < -1022 then
      ⟨.ofNat (signBits negative + r * Nat.pow 2 (q + 1074).toNat)⟩
    else
      let fraction := r * Nat.pow 2 (52 - r.log2) - Nat.pow 2 52
      ⟨.ofNat (signBits negative + (lead + 1023).toNat * Nat.pow 2 52 + fraction)⟩

/-- The pattern that stands for every result that is not a number. -/
def nan : Number := ⟨0x7ff8000000000000⟩

/-- The remainder `x - y * t`, where `t` is the quotient rounded toward zero; it has the sign of
`x`. Both values are brought to the smaller of the two scales, where the remainder is one of
natural numbers and below `2 ^ 53`. -/
def rem (x y : Number) : Number :=
  match x.view, y.view with
  | .nan, _ | _, .nan | .infinite _, _ => nan
  | .finite .., .infinite _ => x
  | .finite negative m p, .finite _ n q =>
    if n = 0 then nan
    else
      let scale := min p q
      ofFraction negative (m * Nat.pow 2 (p - scale).toNat % (n * Nat.pow 2 (q - scale).toNat)) scale

instance : Mod Number := ⟨rem⟩

end Number

end Reified
