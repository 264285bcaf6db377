/-!
# The shortest decimal that reads back

Every double owns an interval of reals: those that round to it. Among the decimals in that interval
the shortest one is chosen, and of several shortest the one nearest to the double.

For a given number of digits only two decimals need to be looked at: the neighbours, on that
decimal grid, of the double itself. If any point of the grid lies in the interval, one of the two
does. All arithmetic is on natural numbers, after both sides have been brought to a common
denominator.

## Main definitions

* `Interval` — a value and the bounds of the reals that round to it, over a common denominator
* `Interval.onGrid?` — the nearest admissible decimal with a given number of digits
* `shortest` — the digits and the power of ten of the chosen decimal
-/

namespace Reified.Decimal

/-- A positive value `value / unit` between the bounds `low / unit` and `high / unit`; the bounds
belong to the interval exactly when `closed` holds. -/
structure Interval where
  low : Nat
  value : Nat
  high : Nat
  unit : Nat
  closed : Bool

namespace Interval

/-- The reals that round to `m * 2 ^ q`, in units of a quarter of the last place. The lower bound is
twice as close when `m` is the least mantissa of its scale; a bound rounds to the even mantissa. -/
def ofDouble (m : Nat) (q : Int) : Interval :=
  let below := if m = Nat.pow 2 52 then 1 else 2
  let up := Nat.pow 2 (q - 2).toNat
  { low := (4 * m - below) * up
    value := 4 * m * up
    high := (4 * m + 2) * up
    unit := Nat.pow 2 (2 - q).toNat
    closed := m % 2 = 0 }

/-- The interval multiplied by `10 ^ k`. -/
def scale (i : Interval) (k : Int) : Interval :=
  let up := Nat.pow 10 k.toNat
  { low := i.low * up
    value := i.value * up
    high := i.high * up
    unit := i.unit * Nat.pow 10 (-k).toNat
    closed := i.closed }

/-- The whole number `n` is not below the lower bound. -/
def aboveLow (i : Interval) (n : Nat) : Bool :=
  if i.closed then i.low ≤ n * i.unit else i.low < n * i.unit

/-- The whole number `n` is not above the upper bound. -/
def belowHigh (i : Interval) (n : Nat) : Bool :=
  if i.closed then n * i.unit ≤ i.high else n * i.unit < i.high

/-- The whole number of the interval that is nearest to its value, if the interval has one. Halfway
between two the larger is taken. -/
def nearestWhole? (i : Interval) : Option Nat :=
  let n := i.value / i.unit
  let down := i.aboveLow n
  let up := i.belowHigh (n + 1)
  if up && (!down || i.unit ≤ 2 * (i.value % i.unit)) then some (n + 1)
  else if down then some n
  else none

/-- The value is below `10 ^ k`. -/
def belowPower (i : Interval) (k : Int) : Bool :=
  i.value * Nat.pow 10 (-k).toNat < i.unit * Nat.pow 10 k.toNat

/-- The decimal `d * 10 ^ (e - n)` nearest to the value among those of the interval, as the pair of
`d` and the exponent of ten. A `d` of `10 ^ n` is written with one digit. -/
def onGrid? (i : Interval) (e : Int) (n : Nat) : Option (Nat × Int) :=
  (i.scale (n - e)).nearestWhole?.map fun d => if d = Nat.pow 10 n then (1, e) else (d, e - n)

end Interval

/-- The least power of ten above `m * 2 ^ q`. The binary length gives the decimal length up to one,
so three candidates suffice. -/
def magnitude (i : Interval) (m : Nat) (q : Int) : Int :=
  let start := (q + m.log2) * 30103 / 100000
  if i.belowPower start then start
  else if i.belowPower (start + 1) then start + 1
  else start + 2

/-- Tries `n`, `n + 1`, ... digits, `fuel` times at most. -/
def searchDigits (i : Interval) (e : Int) : (fuel n : Nat) → Nat × Int
  | 0, n => (i.value * Nat.pow 10 (n - e).toNat / (i.unit * Nat.pow 10 (e - n).toNat), e - n)
  | fuel + 1, n =>
    match i.onGrid? e n with
    | some d => d
    | none => searchDigits i e fuel (n + 1)

/-- The shortest decimal `d * 10 ^ k` that rounds to the double `m * 2 ^ q`, for `0 < m`. Seventeen
digits always suffice. -/
def shortest (m : Nat) (q : Int) : Nat × Int :=
  let i := Interval.ofDouble m q
  searchDigits i (magnitude i m q) 17 1

end Reified.Decimal
