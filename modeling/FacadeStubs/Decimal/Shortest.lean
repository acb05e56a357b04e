/-!
# The shortest decimal that reads back

A finite binary number is `m · 2 ^ q`. All reals of an interval around it round to it, both ends
included when `m` is even. The shortest decimal is sought on ever finer grids: with `n` digits only
the two grid points next to the number can be the nearest ones, so the first grid on which one of
them lies in the interval decides, and of two hits the nearer wins, the upper one on a tie.
-/
namespace FacadeStubs.Decimal

/-- A number with its rounding interval, all over one denominator. -/
structure Interval where
  low : Nat
  value : Nat
  high : Nat
  denominator : Nat
  /-- Whether the ends of the interval round to the number. -/
  closed : Bool

/-- The interval of the 53-bit number `m · 2 ^ q`. Below a power of two numbers lie twice as dense,
so there the lower half of the interval is half as wide. -/
def Interval.ofBinary (m : Nat) (q : Int) : Interval :=
  let low := if m == Nat.pow 2 52 && q > -1074 then 4 * m - 1 else 4 * m - 2
  let scale := Nat.pow 2 (q - 2).toNat
  { low := low * scale, value := 4 * m * scale, high := (4 * m + 2) * scale
    denominator := Nat.pow 2 (2 - q).toNat, closed := m % 2 == 0 }

/-- The numbers in units of `10 ^ k`: numerators of the interval and their denominator. -/
def Interval.inUnits (i : Interval) (k : Int) : Interval :=
  let up := Nat.pow 10 (-k).toNat
  { i with
    low := i.low * up, value := i.value * up, high := i.high * up
    denominator := i.denominator * Nat.pow 10 k.toNat }

/-- Whether the whole number `d` lies in the interval. -/
def Interval.contains (i : Interval) (d : Nat) : Bool :=
  let x := d * i.denominator
  if i.closed then i.low ≤ x && x ≤ i.high else i.low < x && x < i.high

/-- The whole number in the interval that is nearest to its value, among the two next to it. -/
def Interval.nearest? (i : Interval) : Option Nat :=
  let d := i.value / i.denominator
  match i.contains d, i.contains (d + 1) with
  | false, false => none
  | true, false => some d
  | false, true => some (d + 1)
  | true, true =>
    if 2 * (i.value % i.denominator) < i.denominator then some d else some (d + 1)

/-- How often a fraction below one has to be multiplied by ten to reach one. -/
def placesBelowOne : Nat → Nat → Nat → Nat
  | 0, _, _ => 0
  | fuel + 1, num, den => if num ≥ den then 0 else placesBelowOne fuel (num * 10) den + 1

/-- The power of ten of the leading digit of a positive fraction. -/
def leadingPlace (num den : Nat) : Int :=
  if num ≥ den then ((Nat.toDigits 10 (num / den)).length : Int) - 1
  else -(placesBelowOne 400 num den : Int)

/-- The first grid from `n` digits on with a hit, and the hit on it. -/
def searchFrom (i : Interval) (place : Int) : Nat → Nat → Nat × Int
  | 0, n =>
    ((i.inUnits (place - n + 1)).value / (i.inUnits (place - n + 1)).denominator, place - n + 1)
  | fuel + 1, n =>
    let k := place - n + 1
    match (i.inUnits k).nearest? with
    | some d => (d, k)
    | none => searchFrom i place fuel (n + 1)

/-- Drops zeros at the end of the digits into the exponent. -/
def dropZeros : Nat → Nat → Int → Nat × Int
  | 0, d, k => (d, k)
  | fuel + 1, d, k => if d % 10 == 0 then dropZeros fuel (d / 10) (k + 1) else (d, k)

/-- The shortest decimal `d · 10 ^ k` that rounds to the positive number `m · 2 ^ q`. -/
def shortest (m : Nat) (q : Int) : Nat × Int :=
  let i := Interval.ofBinary m q
  let (d, k) := searchFrom i (leadingPlace i.value i.denominator) 17 1
  dropZeros 20 d k

end FacadeStubs.Decimal
