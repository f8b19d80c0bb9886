import Mathlib.Data.String.Basic

/-! Instants and calendar dates as Go's `time` package reads them.

An instant is a number of nanoseconds since the Unix epoch. A date is the text
that the layout `2006-01-02` accepts: four, two and two digits, a month of the
year and a day of that month. The order on such texts is the order on dates,
which is why the code compares them as strings. -/
namespace ControlTower.Go

abbrev Time := Int

/-- January 1, year 1, 00:00:00 UTC: the zero value of `time.Time`. -/
def Time.zero : Time := -62135596800000000000

def Time.isZero (t : Time) : Bool := t == Time.zero

/-- `Time.MarshalJSON` succeeds: the year, in UTC, is between 0 and 9999. -/
def Time.marshals (t : Time) : Bool := -62167219200000000000 ≤ t && t < 253402300800000000000

/-- What `time.Now` returns: an instant other than the zero one, in a year of four digits. -/
structure Now where
  instant : Time
  nonzero : Time.isZero instant = false
  marshals : Time.marshals instant = true

def leapYear (year : Nat) : Bool := year % 4 == 0 && (year % 100 != 0 || year % 400 == 0)

def daysIn (month year : Nat) : Nat :=
  match month with
  | 2 => if leapYear year then 29 else 28
  | 4 | 6 | 9 | 11 => 30
  | _ => 31

def digit (c : Char) : Option Nat := if '0' ≤ c ∧ c ≤ '9' then some (c.toNat - 48) else none

def digits (cs : List Char) : Option Nat :=
  cs.foldlM (fun n c => (digit c).map (10 * n + ·)) 0

/-- `time.Parse("2006-01-02", date)`: the year, the month and the day. -/
def parseDate (date : String) : Option (Nat × Nat × Nat) :=
  match date.toList with
  | [y₁, y₂, y₃, y₄, '-', m₁, m₂, '-', d₁, d₂] => do
    let year ← digits [y₁, y₂, y₃, y₄]
    let month ← digits [m₁, m₂]
    let day ← digits [d₁, d₂]
    if 1 ≤ month ∧ month ≤ 12 ∧ 1 ≤ day ∧ day ≤ daysIn month year
      then some (year, month, day) else none
  | _ => none

example : parseDate "2024-02-29" = some (2024, 2, 29) ∧ parseDate "2023-02-29" = none := by decide

end ControlTower.Go
