import Mathlib.Data.Rat.Floor

/-! Go's `float64` arithmetic on finite values.

A finite double is the rational it denotes, and an operation rounds the exact
result to the nearest double, ties to the even one. -/
namespace ControlTower.Go

/-- The nearest integer, ties to the even one. -/
def roundHalfEven (q : Rat) : Int :=
  let n := q.floor
  let fraction := q - n
  if fraction < 1 / 2 then n else if 1 / 2 < fraction then n + 1 else if n % 2 = 0 then n else n + 1

/-- The exponent of the leading bit of `q ≠ 0`. -/
def leadingExponent (q : Rat) : Int :=
  let e : Int := q.num.natAbs.log2 - q.den.log2
  if |q| < (2 : Rat) ^ e then e - 1 else e

/-- The double nearest to `q`: 53 significant bits, fewer below the normal range. -/
def nearestDouble (q : Rat) : Rat :=
  if q = 0 then 0 else
  let unit : Rat := 2 ^ max (leadingExponent q - 52) (-1074)
  roundHalfEven (q / unit) * unit

example : nearestDouble (1 / 10) = 3602879701896397 / 36028797018963968 := by decide +kernel

/-- `float64(n)`. -/
def float64 (n : Int) : Rat := nearestDouble n

/-- `math.Round`: the nearest integer, halves away from zero. -/
def roundHalfAway (q : Rat) : Int := if 0 ≤ q then (q + 1 / 2).floor else -((-q + 1 / 2).floor)

end ControlTower.Go
