import EntityQuery.Decimal.Double

/-! # The fewest digits that read back

In units of `10 ^ -1076` a finite double is a whole number, and so are the two ends of the interval
of numbers that round to it. The shortest decimal form comes from the coarsest grid `10 ^ step` with
a point in that interval: of the two grid points around the value the nearer one that lies in the
interval, the upper one when both are equally near. The grid of step zero holds the value itself, so
the search always finds a point. -/

namespace EntityQuery.Decimal

/-- The value, and the interval of what rounds to it, in units of `10 ^ -1076`. -/
structure Interval where
  low : Nat
  value : Nat
  high : Nat
  /-- The two ends round to the value too. -/
  closed : Bool
  deriving DecidableEq, Repr, Inhabited

/-- The interval of a positive double. Its ends are half way to the neighbours; the one below is
half as far at a power of two. An end rounds to the even mantissa. -/
def Double.interval (x : Double) : Interval :=
  let unit := Nat.pow 2 x.scale * Nat.pow 5 1076
  let below := if x.mantissa = Nat.pow 2 52 ∧ 0 < x.scale then 1 else 2
  { low := (4 * x.mantissa - below) * unit
    value := 4 * x.mantissa * unit
    high := (4 * x.mantissa + 2) * unit
    closed := x.mantissa % 2 = 0 }

/-- A number rounds to the value of the interval. -/
def Interval.holds (i : Interval) (n : Nat) : Bool :=
  if i.closed then i.low ≤ n && n ≤ i.high else i.low < n && n < i.high

/-- The multiple of `10 ^ step` in the interval that is nearest to the value, without the power:
of two that are equally near the greater. -/
def Interval.onGrid (i : Interval) (step : Nat) : Option Nat :=
  let power := Nat.pow 10 step
  let lower := i.value / power
  let upper := lower + 1
  let rest := i.value % power
  match i.holds (lower * power), i.holds (upper * power) with
  | true, true => some (if 2 * rest < power then lower else upper)
  | true, false => some lower
  | false, true => some upper
  | false, false => none

/-- Digits and exponent on the coarsest grid of step at most `step` that meets the interval. -/
def Interval.search (i : Interval) : Nat → Nat × Int
  | 0 => (i.value, -1076)
  | step + 1 =>
    match i.onGrid (step + 1) with
    | some digits => (digits, (step + 1 : Nat) - 1076)
    | none => i.search step

/-- The fewest digits, and the exponent of the last one, that read back as `x`. No finite double
reaches `10 ^ 310`. -/
def Double.shortest (x : Double) : Nat × Int :=
  if x.mantissa = 0 then (0, 0) else x.interval.search (1076 + 310)

end EntityQuery.Decimal
