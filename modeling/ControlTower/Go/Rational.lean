import Mathlib.Data.Rat.Defs
import Mathlib.Algebra.Ring.Int.Defs
import Mathlib.Algebra.Ring.Nat

/-! Decimal texts as `math/big` and `strings` read and write them.

`SetString` takes a sign, digits with a fraction and an exponent, or two integers
with a slash between them; a prefix tells the base, and `_` may stand between digits.
`FloatString` rounds to a number of digits, halves away from zero. -/
namespace ControlTower.Go

/-- `unicode.IsSpace`. -/
def isSpace (c : Char) : Bool :=
  ['\t', '\n', '\x0b', '\x0c', '\r', ' ', '\u0085', '\u00a0', '\u1680',
    '\u2028', '\u2029', '\u202f', '\u205f', '\u3000'].contains c || ('\u2000' ≤ c && c ≤ '\u200a')

/-- `strings.TrimSpace`. -/
def trimSpace (s : String) : String :=
  String.ofList (((s.toList.dropWhile isSpace).reverse.dropWhile isSpace).reverse)

/-- `+` and `-` in front of a number: whether it is negative, and what is left. -/
def signed : List Char → Bool × List Char
  | '-' :: cs => (true, cs)
  | '+' :: cs => (false, cs)
  | cs => (false, cs)

/-- What a digit stands for; a character that is none is above every base. -/
def digitValue (c : Char) : Nat :=
  if c.isDigit then c.toNat - 48
  else if c.isLower then c.toNat - 87
  else if c.isUpper then c.toNat - 55
  else 63

/-- Digits as they are read: how many there are, how many of them before the point, and
the last character (`'0'` for a digit, `'.'` for anything that is no `_`). -/
structure Scan where
  value : Nat := 0
  count : Nat := 0
  point : Option Nat := none
  prev : Char := '.'
  invalSep : Bool := false

/-- Some digits were read, and each `_` stands between two of them. -/
def Scan.ok (s : Scan) : Bool := s.count != 0 && !s.invalSep && s.prev != '_'

/-- The loop over the digits, and what is left behind them. -/
def scanDigits (base : Nat) (fracOk : Bool) : Scan → List Char → Scan × List Char
  | s, [] => (s, [])
  | s, c :: cs =>
    if c = '.' ∧ fracOk ∧ s.point = none then
      scanDigits base fracOk
        { s with point := some s.count, prev := '.', invalSep := s.invalSep || s.prev == '_' } cs
    else if c = '_' then
      scanDigits base fracOk { s with prev := '_', invalSep := s.invalSep || s.prev != '0' } cs
    else if digitValue c < base then
      scanDigits base fracOk
        { s with value := base * s.value + digitValue c, count := s.count + 1, prev := '0' } cs
    else (s, c :: cs)

/-- The base that the text asks for, and where its digits start. A zero in front of an
integer asks for octal digits; it is read as one of them. -/
def basePrefix (fracOk : Bool) : List Char → Nat × Scan × List Char
  | '0' :: c :: cs =>
    if c = 'b' ∨ c = 'B' then (2, {prev := '0'}, cs)
    else if c = 'o' ∨ c = 'O' then (8, {prev := '0'}, cs)
    else if c = 'x' ∨ c = 'X' then (16, {prev := '0'}, cs)
    else (if fracOk then 10 else 8, {}, '0' :: c :: cs)
  | cs => (10, {}, cs)

/-- `nat.scan` with base 0: the number without its point, the base, how many places are
behind the point, and what is left. -/
def natScan (fracOk : Bool) (cs : List Char) : Option (Nat × Nat × Nat × List Char) :=
  let (base, start, cs) := basePrefix fracOk cs
  let (s, rest) := scanDigits base fracOk start cs
  if s.ok then some (s.value, base, s.count - s.point.getD s.count, rest) else none

/-- `scanExponent`: the exponent, an `int64`, with its base, and what is left. -/
def scanExponent : List Char → Option (Int × Nat × List Char)
  | [] => some (0, 10, [])
  | c :: cs =>
    if c ∈ ['e', 'E', 'p', 'P'] then
      let (negative, ds) := signed cs
      let (s, rest) := scanDigits 10 false {} ds
      let e : Int := if negative then -s.value else s.value
      if s.ok && -2 ^ 63 ≤ e && e < 2 ^ 63 then
        some (e, if c = 'e' ∨ c = 'E' then 10 else 2, rest)
      else none
    else some (0, 10, c :: cs)

/-- An integer without a sign that is all of the text. -/
def natSetString (cs : List Char) : Option Nat :=
  (natScan false cs).bind fun (n, _, _, rest) => if rest = [] then some n else none

/-- A power of the base as a factor. -/
def power (base : Nat) (e : Int) : Rat :=
  if 0 ≤ e then (base ^ e.toNat : Nat) else 1 / (base ^ (-e).toNat : Nat)

/-- A number with a point and an exponent. Powers of ten are powers of five and of two;
the sums are limited, so that those of `int64` that would wrap are refused as well. -/
def floatSetString (cs : List Char) : Option Rat := do
  let (mantissa, base, places, rest) ← natScan true cs
  let (e, ebase, rest) ← scanExponent rest
  let exp5 : Int := (if base = 10 then -(places : Int) else 0) + (if ebase = 10 then e else 0)
  let exp2 : Int := e - places * (if base = 8 then 3 else if base = 16 then 4 else 1)
  if rest ≠ [] then none
  else if mantissa = 0 then some 0
  else if 10 ^ 6 < exp5.natAbs ∨ 10 ^ 7 < exp2.natAbs then none
  else some (mantissa * power 5 exp5 * power 2 exp2)

/-- `(*big.Rat).SetString`. -/
def ratSetString (s : String) : Option Rat :=
  let (negative, cs) := signed s.toList
  let magnitude := match cs.span (· != '/') with
    | (numerator, '/' :: denominator) =>
      (natSetString numerator).bind fun a => (natSetString denominator).bind fun b =>
        if b = 0 then none else some ((a : Rat) / b)
    | _ => floatSetString cs
  magnitude.map fun x => if negative then -x else x

/-- `(*big.Rat).FloatString`. -/
def floatString (x : Rat) (digits : Nat) : String :=
  let scaled := (2 * x.num.natAbs * 10 ^ digits + x.den) / (2 * x.den)
  let fraction := toString (scaled % 10 ^ digits)
  (if x < 0 then "-" else "") ++ toString (scaled / 10 ^ digits) ++
    (if digits = 0 then "" else "." ++ String.ofList (List.replicate (digits - fraction.length) '0') ++ fraction)

example : ratSetString "12.5" = some (25 / 2) ∧ ratSetString "-3/4" = some (-3 / 4) ∧
    ratSetString "1e-2" = some (1 / 100) ∧ ratSetString "1.2.3" = none := by decide +kernel

example : ratSetString "010/1" = some 8 ∧ ratSetString "010" = some 10 ∧
    ratSetString "1_000" = some 1000 ∧ ratSetString "1__0" = none ∧ ratSetString "0x1.8p3" = some 12 ∧
    ratSetString "1e1000001" = none := by decide +kernel

example : floatString (1 / 3) 6 = "0.333333" ∧ floatString (-5 / 8) 2 = "-0.63" := by decide +kernel

end ControlTower.Go
