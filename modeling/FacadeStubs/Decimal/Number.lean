import FacadeStubs.Decimal.Shortest
import FacadeStubs.Text.Segments

/-!
# Floating-point numbers as text

`Number.ofFloat` takes a 64-bit float apart, `readFloat?` reads a decimal into the nearest float.
-/
namespace FacadeStubs.Decimal

/-- What a 64-bit float stands for; a finite one is `± m · 2 ^ q`. -/
inductive Number where
  | nan
  | infinite (negative : Bool)
  | finite (negative : Bool) (m : Nat) (q : Int)
  deriving Repr, DecidableEq

/-- Takes the bits of a float apart. -/
def Number.ofBits (bits : Nat) : Number :=
  let negative := bits / Nat.pow 2 63 == 1
  let exponent : Nat := bits / Nat.pow 2 52 % 2048
  let fraction : Nat := bits % Nat.pow 2 52
  if exponent == 2047 then
    if fraction == 0 then .infinite negative else .nan
  else if exponent == 0 then .finite negative fraction (-1074)
  else .finite negative (Nat.pow 2 52 + fraction) ((exponent : Int) - 1075)

/-- Takes a float apart. -/
def Number.ofFloat (f : Float) : Number := Number.ofBits f.toBits.toNat

/-- The value of a run of decimal digits. -/
def digitsValue (digits : List Char) : Nat :=
  digits.foldl (fun n c => n * 10 + (c.toNat - 48)) 0

/-- The float nearest to `m · 10 ^ e`. Numbers beyond the range of floats need no exact
arithmetic. -/
def nearestFloat (m : Nat) (e : Int) : Float :=
  if m == 0 then 0.0
  else if e > 400 then 1.0 / 0.0
  else if e < -(400 + (Nat.toDigits 10 m).length : Int) then 0.0
  else if e ≥ 0 then Float.ofScientific m false e.toNat
  else Float.ofScientific m true (-e).toNat

/-- The exponent after its letter: an optional sign and at least one digit. -/
def readExponent? (text : List Char) : Option Int :=
  let (negative, digits) :=
    match text with
    | '-' :: rest => (true, rest)
    | '+' :: rest => (false, rest)
    | rest => (false, rest)
  if digits.isEmpty || !digits.all Char.isDigit then none
  else
    let n : Int := (digitsValue digits : Nat)
    some (if negative then -n else n)

/-- Reads an unsigned decimal with an optional fraction and exponent. -/
def readFloat? (text : List Char) : Option Float :=
  let whole := text.takeWhile Char.isDigit
  let afterWhole := text.dropWhile Char.isDigit
  let (fraction, afterFraction) :=
    match afterWhole with
    | '.' :: rest => (rest.takeWhile Char.isDigit, rest.dropWhile Char.isDigit)
    | rest => ([], rest)
  if whole.isEmpty && fraction.isEmpty then none
  else
    let m := digitsValue (whole ++ fraction)
    match afterFraction with
    | [] => some (nearestFloat m (-(fraction.length : Int)))
    | c :: rest =>
      if c == 'e' || c == 'E' then
        (readExponent? rest).map fun e => nearestFloat m (e - fraction.length)
      else none

end FacadeStubs.Decimal
