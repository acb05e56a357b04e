import FacadeStubs.Decimal.Number
import FacadeStubs.Php.Notation
import FacadeStubs.Php.Reference

/-!
# Constant expressions in source

The constant expression that a syntax tree stands for. What is no scalar, array, class constant or
operator over these is kept as source text with absolute class names.
-/
namespace FacadeStubs.Php

/-- A sign in front of a constant; none if the whole is to be kept as source text. -/
def signedConstant? (sign : Option Char) (operand : Literal) : Option Literal :=
  match sign, operand with
  | some '-', .int i => (Decimal.int64? (-i.toInt)).map .int
  | some '-', .float f => some (.float (-f))
  | some '+', .int i => some (.int i)
  | some '+', .float f => some (.float f)
  | _, .expr _ => none
  | some op, operand =>
    if op == '-' || op == '+' || op == '!' || op == '~' then some (.unary op operand) else none
  | none, _ => none

/-- A constant of a class, by the texts in front of and behind the double colon. -/
def classConstant? (scope : ClassScope) (qualifier member : String) : Option Literal :=
  match lowerCase qualifier with
  | "static" => some (.lateStatic scope.cls member)
  | word =>
    let cls? :=
      if word == "self" then some scope.cls
      else if word == "parent" then scope.parent
      else some (scope.names.resolve qualifier)
    cls?.map fun cls => if lowerCase member == "class" then .str cls else .classConst cls member

/-- A name as a constant: only the three keywords have a value. -/
def keywordConstant? (name : String) : Option Literal :=
  match lowerCase name with
  | "true" => some (.bool true)
  | "false" => some (.bool false)
  | "null" => some .null
  | _ => none

mutual

/-- The constant expression of a node, or its source text. -/
def constantOf (source : Bytes) (scope : ClassScope) : Node → Literal
  | .mk kind start stop children =>
    let text := trimmed (Node.text source (.mk kind start stop []))
    let constant? : Option Literal :=
      match kind, children with
      | .nullLiteral, _ => some .null
      | .booleanLiteral, _ => some (.bool (lowerCase text == "true"))
      | .integerLiteral, _ => (Notation.integer? text.toList).map .int
      | .floatLiteral, _ => (Decimal.readFloat? (text.toList.filter (· != '_'))).map .float
      | .plainString, _ => (Notation.string? text.toList).map fun s => .str (String.ofList s)
      | .encapsedString, _ => (Notation.string? text.toList).map fun s => .str (String.ofList s)
      | .name, _ => keywordConstant? text
      | .parenthesized, inner :: _ => some (constantOf source scope inner)
      | .unaryOperation, [operand] =>
        signedConstant? text.toList.head? (constantOf source scope operand)
      | .binaryOperation, [left, op, right] =>
        let l := constantOf source scope left
        let r := constantOf source scope right
        if l.isExpr && r.isExpr then none
        else some (.binary (lowerCase (op.text source)) l r)
      | .arrayCreation, elements => (arrayEntries? source scope elements).map .array
      | .longArray, elements => (arrayEntries? source scope elements).map .array
      | .classConstant, [qualifier, member] =>
        classConstant? scope (qualifier.text source) (member.text source)
      | _, _ => none
    constant?.getD (.expr (absoluteSource source scope (.mk kind start stop children)))
  termination_by structural n => n

/-- The entries of an array; none if an element is a reference or unpacks another array. -/
def arrayEntries? (source : Bytes) (scope : ClassScope) : List Node → Option (List ArrayEntry)
  | [] => some []
  | .mk _ _ _ [value] :: rest =>
    if value.kind == .unpacking || value.kind == .byReference then none
    else
      (arrayEntries? source scope rest).map fun entries =>
        .item (constantOf source scope value) :: entries
  | .mk _ _ _ [key, value] :: rest =>
    if value.kind == .byReference then none
    else
      (arrayEntries? source scope rest).map fun entries =>
        .pair (constantOf source scope key) (constantOf source scope value) :: entries
  | _ => none
  termination_by structural nodes => nodes

end

end FacadeStubs.Php
