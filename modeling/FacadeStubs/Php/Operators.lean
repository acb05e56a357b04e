import FacadeStubs.Php.Reader

/-!
# Operators

Binary operators and how tightly they bind. The larger the strength, the tighter; of operators of
one strength the left one binds first, unless they group to the right.
-/
namespace FacadeStubs.Php

open Lexical Reader

/-- A binary operator. -/
structure BinaryOperator where
  text : String
  strength : Nat
  groupsRight : Bool

/-- The operators spelled as words. -/
def wordOperators : List BinaryOperator :=
  [⟨"or", 1, false⟩, ⟨"xor", 2, false⟩, ⟨"and", 3, false⟩]

/-- The operators spelled as signs, longer ones first. -/
def signOperators : List BinaryOperator :=
  [⟨"===", 12, false⟩, ⟨"!==", 12, false⟩, ⟨"<=>", 12, false⟩,
   ⟨"??", 6, true⟩, ⟨"||", 7, false⟩, ⟨"&&", 8, false⟩,
   ⟨"==", 12, false⟩, ⟨"!=", 12, false⟩, ⟨"<>", 12, false⟩,
   ⟨"<=", 13, false⟩, ⟨">=", 13, false⟩, ⟨"<<", 15, false⟩, ⟨">>", 15, false⟩, ⟨"**", 18, true⟩,
   ⟨"|", 9, false⟩, ⟨"^", 10, false⟩, ⟨"&", 11, false⟩, ⟨"<", 13, false⟩, ⟨">", 13, false⟩,
   ⟨".", 14, false⟩, ⟨"+", 16, false⟩, ⟨"-", 16, false⟩,
   ⟨"*", 17, false⟩, ⟨"/", 17, false⟩, ⟨"%", 17, false⟩]

/-- The signs of assignments that combine the old value with the new one. -/
def combiningAssignments : List String :=
  ["**=", "<<=", ">>=", "??=", "+=", "-=", "*=", "/=", ".=", "%=", "&=", "|=", "^="]

/-- The binary operator at the front. -/
def operatorAt? (bytes : Bytes) : Option BinaryOperator :=
  let word := wordAt bytes
  if word != "" then wordOperators.find? fun o => o.text == word
  else signOperators.find? fun o => beginsWith o.text bytes

/-- The sign at the front of an assignment that combines the old value with the new one. -/
def combiningAssignmentAt? (bytes : Bytes) : Option String :=
  combiningAssignments.find? fun sign => beginsWith sign bytes

/-- Whether the bytes begin with the sign of a plain assignment. -/
def atAssignment (bytes : Bytes) : Bool :=
  beginsWith "=" bytes && !beginsWith "==" bytes && !beginsWith "=>" bytes

/-- Whether the bytes begin with a question mark that asks a condition. -/
def atCondition (bytes : Bytes) : Bool :=
  beginsWith "?" bytes && !beginsWith "??" bytes && !beginsWith "?->" bytes && !atClosingTag bytes

/-- Whether the bytes begin with a colon that stands alone. -/
def atSingleColon (bytes : Bytes) : Bool := beginsWith ":" bytes && !beginsWith "::" bytes

/-- The name or sign of an operator. -/
def operatorSign (o : BinaryOperator) : Reader Node :=
  leaf .operator do
    let bytes ← remaining
    advance (max o.text.length (nameLength bytes))

/-- Operands and operators that bind at least as tightly as `least`, behind an operand already
read. -/
def operationsWithin (g : Grammar) (least : Nat) : Nat → Node → Reader Node
  | 0, left => return left
  | fuel + 1, left => do
    let bytes ← behindOperand
    match operatorAt? bytes with
    | some o =>
      if o.strength < least then return left
      else
        let sign ← operatorSign o
        let right ← g.expression (if o.groupsRight then o.strength else o.strength + 1)
        operationsWithin g least fuel
          (.mk .binaryOperation left.start right.stop [left, sign, right])
    | none =>
      if atCondition bytes && least ≤ Strength.conditional then
        symbol "?"
        let middle ← inner do
          if atSingleColon (← openAhead) then pure []
          else
            let e ← g.expression Strength.any
            pure [e]
        symbol ":"
        let other ← g.expression (Strength.conditional + 1)
        operationsWithin g least fuel
          (.mk .expression left.start other.stop (left :: middle ++ [other]))
      else return left

end FacadeStubs.Php
