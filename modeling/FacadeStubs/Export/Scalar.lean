import FacadeStubs.Decimal.Integer
import FacadeStubs.Decimal.Number
import FacadeStubs.Literal

/-!
# Scalars as source text

Strings between single quotes and numbers as the exported form writes them.
-/
namespace FacadeStubs.Export

/-- A character inside single quotes. A NUL closes the quotes, joins an escaped one on and opens
them again. -/
def quotedChar (c : Char) : List Char :=
  if c == '\\' then ['\\', '\\']
  else if c == '\'' then ['\\', '\'']
  else if c.toNat == 0 then "' . \"\\0\" . '".toList
  else [c]

/-- A string between single quotes. -/
def stringText (s : String) : String :=
  String.ofList ('\'' :: s.toList.flatMap quotedChar ++ ['\''])

/-- Digits with the decimal point after the first `place + 1` of them, zeros filling up; at least
one digit stands on either side of the point. -/
def positional (digits : List Char) (place : Int) : List Char :=
  if place < 0 then
    ['0', '.'] ++ List.replicate (-place - 1).toNat '0' ++ digits
  else
    let n := place.toNat + 1
    let whole := digits.take n ++ List.replicate (n - digits.length) '0'
    whole ++ '.' :: (if digits.length ≤ n then ['0'] else digits.drop n)

/-- Digits with the decimal point after the first, and the power of ten behind a letter. -/
def scientific (digits : List Char) (place : Int) : List Char :=
  let sign := if place < 0 then '-' else '+'
  digits.take 1 ++ '.' :: (if digits.length ≤ 1 then ['0'] else digits.drop 1) ++
    'E' :: sign :: Nat.toDigits 10 place.natAbs

/-- The text of a positive finite number: positional from 10^-4 up to 10^16. -/
def magnitudeText (m : Nat) (q : Int) : List Char :=
  let (d, k) := Decimal.shortest m q
  let digits := Nat.toDigits 10 d
  let place := k + digits.length - 1
  if -4 ≤ place && place < 16 then positional digits place else scientific digits place

/-- A float with the fewest digits that read back; a point always stands in a finite one. -/
def floatText (f : Float) : String :=
  match Decimal.Number.ofFloat f with
  | .nan => "NAN"
  | .infinite negative => if negative then "-INF" else "INF"
  | .finite negative m q =>
    let body := if m == 0 then ['0', '.', '0'] else magnitudeText m q
    String.ofList (if negative then '-' :: body else body)

/-- The text of a scalar; none for any other expression. -/
def scalarText? : Literal → Option String
  | .null => some "NULL"
  | .bool b => some (if b then "true" else "false")
  | .int i => some (Decimal.intText i.toInt)
  | .float f => some (floatText f)
  | .str s => some (stringText s)
  | _ => none

end FacadeStubs.Export
