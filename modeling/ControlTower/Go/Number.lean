import Mathlib.Algebra.Ring.Nat

/-! Integers that pass through an untyped JSON value.

`encoding/json` decodes a number into an `any` as a `float64`, writes a `float64`
with the fewest digits that read back as the same one, and decodes a number into
an `int64` only when it fits. -/
namespace ControlTower.Go

/-- The `float64` nearest to an integer, ties to even. `s` is the exponent of its
last binary digit. -/
def nearestFloat (n : Nat) : Nat :=
  let s := n.log2 - 52
  let q := n / 2 ^ s
  let r := 2 * (n % 2 ^ s)
  if 2 ^ s < r ∨ (r = 2 ^ s ∧ q % 2 = 1) then (q + 1) * 2 ^ s else q * 2 ^ s

def nearestMultiple (n k : Nat) : Nat := (n + k / 2) / k * k

/-- The digits of an integral `float64`: as many zeros at the end as still let it be
read back. -/
def shortestDigits (f : Nat) : Nat :=
  (((List.range 20).reverse.map fun zeros => nearestMultiple f (10 ^ zeros)).find? fun digits =>
    nearestFloat digits == f).getD f

def minInt64 : Int := -9223372036854775808

def maxInt64 : Int := 9223372036854775807

/-- An `int64` that was written as JSON, read into an `any`, written again and read
into an `int64`. -/
def throughAny (n : Int) : Option Int :=
  let digits : Int := shortestDigits (nearestFloat n.natAbs)
  let m := if n < 0 then -digits else digits
  if minInt64 ≤ m ∧ m ≤ maxInt64 then some m else none

/-- The first integer that is no `float64`, and one whose digits no longer fit. -/
example : throughAny 9007199254740993 = some 9007199254740992 ∧
    throughAny 9223372036854775807 = none := by decide

end ControlTower.Go
