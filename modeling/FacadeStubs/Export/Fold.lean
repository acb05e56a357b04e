import FacadeStubs.ClassIndex
import FacadeStubs.Decimal.Integer

/-!
# Folding constant expressions

Operators over scalars are evaluated, constants of indexed classes followed. Integer arithmetic is
exact: a result outside the 64-bit range becomes a float where the operator has a float meaning and
is refused where it has none. A chain of constants is followed for at most `maxDepth` links, so
folding ends on cyclic definitions.
-/
namespace FacadeStubs.Export

/-- How many constant references are followed one behind the other. -/
def maxDepth : Nat := 8

/-- The string that a scalar is joined as. Floats are left alone. -/
def stringOperand? : Literal → Option String
  | .str s => some s
  | .int i => some (Decimal.intText i.toInt)
  | .bool b => some (if b then "1" else "")
  | .null => some ""
  | _ => none

/-- The number that an operand stands for. -/
def numberOperand? : Literal → Option Float
  | .int i => some (Float.ofInt i.toInt)
  | .float f => some f
  | _ => none

/-- `a ^ e` when it is in range. From 2 ^ 64 on no base but 0, 1 and -1 stays in range. -/
def powInt? (a : Int) (e : Nat) : Option Int64 :=
  if e < 64 then Decimal.int64? (Int.pow a e)
  else if a.natAbs ≤ 1 then Decimal.int64? (Int.pow a (64 + e % 2))
  else none

/-- An arithmetic operator on integers, when its exact value is a 64-bit integer. -/
def integerOp? (op : String) (a b : Int64) : Option Int64 :=
  let x := a.toInt
  let y := b.toInt
  match op with
  | "+" => Decimal.int64? (x + y)
  | "-" => Decimal.int64? (x - y)
  | "*" => Decimal.int64? (x * y)
  | "/" => if y ≠ 0 ∧ x.tmod y = 0 then Decimal.int64? (x.tdiv y) else none
  | "**" => if 0 ≤ y ∧ y < 4294967296 then powInt? x y.toNat else none
  | _ => none

/-- An arithmetic operator on floats. Division by zero has no value. -/
def floatOp? (op : String) (a b : Float) : Option Float :=
  match op with
  | "+" => some (a + b)
  | "-" => some (a - b)
  | "*" => some (a * b)
  | "/" => if b == 0.0 then none else some (a / b)
  | "**" => some (Float.pow a b)
  | _ => none

/-- An operator that is defined on integers only. Shifts take 0 to 63 places. -/
def bitOp? (op : String) (a b : Int64) : Option Int64 :=
  let y := b.toInt
  match op with
  | "%" =>
    if y = 0 ∨ (y = -1 ∧ a.toInt = -Decimal.int64Bound) then none
    else Decimal.int64? (a.toInt.tmod y)
  | "|" => some (a ||| b)
  | "&" => some (a &&& b)
  | "^" => some (a ^^^ b)
  | "<<" => if 0 ≤ y ∧ y < 64 then some (a <<< b) else none
  | ">>" => if 0 ≤ y ∧ y < 64 then some (a >>> b) else none
  | _ => none

/-- Arithmetic on integers and floats: an integer when the exact result is one in range, otherwise
a float. -/
def arithmetic? (op : String) (left right : Literal) : Option Literal :=
  let exact :=
    match left, right with
    | .int a, .int b => integerOp? op a b
    | _, _ => none
  match exact with
  | some i => some (.int i)
  | none =>
    match numberOperand? left, numberOperand? right with
    | some a, some b => (floatOp? op a b).map .float
    | _, _ => none

/-- A binary operator on scalars. -/
def binary? (op : String) (left right : Literal) : Option Literal :=
  if op == "." then
    match stringOperand? left, stringOperand? right with
    | some a, some b => some (.str (a ++ b))
    | _, _ => none
  else if op == "??" then
    match left with
    | .null => some right
    | _ => some left
  else if ["+", "-", "*", "/", "**"].contains op then arithmetic? op left right
  else
    match left, right with
    | .int a, .int b => (bitOp? op a b).map .int
    | _, _ => none

/-- A unary operator on a scalar. -/
def unary? (op : Char) (operand : Literal) : Option Literal :=
  match op, operand with
  | '-', .int i => (Decimal.int64? (-i.toInt)).map .int
  | '-', .float f => some (.float (-f))
  | '+', .int i => some (.int i)
  | '+', .float f => some (.float f)
  | '!', .bool b => some (.bool (!b))
  | '~', .int i => some (.int (~~~i))
  | _, _ => none

/-- Whether the name of a constant is the keyword that stands for the class name. -/
def isClassWord (name : String) : Bool := lowerCase name == "class"

/-- Folds an expression to a scalar, given what its constant references fold to. -/
def foldWith (reference : String → String → Option Literal) : Literal → Option Literal
  | .null => some .null
  | .bool b => some (.bool b)
  | .int i => some (.int i)
  | .float f => some (.float f)
  | .str s => some (.str s)
  | .classConst c n => if isClassWord n then some (.str c) else reference c n
  | .lateStatic c n => if isClassWord n then some (.str c) else reference c n
  | .binary op l r =>
    match foldWith reference l, foldWith reference r with
    | some a, some b => binary? op a b
    | _, _ => none
  | .unary op v => (foldWith reference v).bind (unary? op)
  | .array _ => none
  | .expr _ => none

/-- Folds an expression to a scalar; `budget` constant references may still be followed. -/
def fold (index : ClassIndex) : Nat → Literal → Option Literal
  | 0 => foldWith fun _ _ => none
  | budget + 1 => foldWith fun c n => (index.constant? c n).bind (fold index budget)

end FacadeStubs.Export
