/-!
# Integers as text

Writing a 64-bit integer in decimal, and reading digits in any base up to 16 into one. Reading is
exact: a value outside the 64-bit range is refused, never wrapped.
-/
namespace FacadeStubs.Decimal

/-- Decimal digits of a natural number. -/
def natText (n : Nat) : String := String.ofList (Nat.toDigits 10 n)

/-- Decimal digits of an integer, with a minus sign in front of a negative one. -/
def intText (i : Int) : String :=
  if i < 0 then "-" ++ natText i.natAbs else natText i.natAbs

/-- The least value above all 64-bit integers, two to the power of 63. -/
def int64Bound : Int := 9223372036854775808

/-- The 64-bit integer of a value in range. -/
def int64? (i : Int) : Option Int64 :=
  if -int64Bound ≤ i ∧ i < int64Bound then some (Int64.ofInt i) else none

/-- The value of a digit in a base. -/
def digitIn? (base : Nat) (c : Char) : Option Nat :=
  let v :=
    if '0' ≤ c && c ≤ '9' then c.toNat - 48
    else if 'a' ≤ c && c ≤ 'f' then c.toNat - 87
    else if 'A' ≤ c && c ≤ 'F' then c.toNat - 55
    else base
  if v < base then some v else none

/-- Reads further digits behind the value `n`. -/
def readDigitsFrom? (base : Nat) (n : Nat) : List Char → Option Nat
  | [] => some n
  | c :: rest =>
    match digitIn? base c with
    | some v => readDigitsFrom? base (n * base + v) rest
    | none => none

/-- The value of a non-empty run of digits. -/
def readDigits? (base : Nat) (digits : List Char) : Option Nat :=
  if digits.isEmpty then none else readDigitsFrom? base 0 digits

/-- Reads digits into a 64-bit integer. -/
def readInt64? (base : Nat) (digits : List Char) : Option Int64 :=
  (readDigits? base digits).bind fun n => int64? n

/-- The integer whose decimal text a string is. -/
def canonicalInt? (s : String) : Option Int64 :=
  let value :=
    match s.toList with
    | '-' :: digits => (readDigits? 10 digits).bind fun n => int64? (-(n : Int))
    | digits => readInt64? 10 digits
  value.filter fun i => intText i.toInt == s

end FacadeStubs.Decimal
