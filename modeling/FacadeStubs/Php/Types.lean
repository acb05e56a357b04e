import FacadeStubs.Php.Reader

/-!
# Types in source

Type declarations: keywords and class names, nullable ones, unions, intersections, and unions with
intersections in parentheses. An ampersand joins two types only if a type follows it; in front of a
variable it marks a reference.
-/
namespace FacadeStubs.Php

open Lexical Reader

/-- The type keywords, each with one spelling only. -/
def primitiveTypes : List String :=
  ["array", "iterable", "bool", "float", "int", "string", "void", "mixed", "false", "null", "true"]

/-- Whether the name at the front is a type keyword. -/
def atPrimitiveType (bytes : Bytes) : Bool :=
  wordAt bytes == "callable" || wordAt bytes == "static" ||
    primitiveTypes.contains (exactWordAt bytes)

/-- A keyword or a class name. -/
def plainType : Reader Node := do
  if atPrimitiveType (← ahead) then
    let n ← identifier
    return .mk .primitiveType n.start n.stop []
  else
    let n ← anyName
    return .mk .namedType n.start n.stop [n]

/-- A type that may have a question mark in front. -/
def simpleType : Reader Node := do
  if ← nextIs "?" then
    nodeOf .optionalType do
      symbol "?"
      return [← plainType]
  else plainType

/-- Whether the bytes begin with an ampersand that joins types. -/
def joinsTypes (bytes : Bytes) : Bool :=
  match bytes with
  | a :: rest =>
    let next := rest.drop (gaps rest)
    a == ascii '&' && (nameLength next != 0 || beginsWith "\\" next || beginsWith "?" next)
  | [] => false

/-- A type behind an ampersand. -/
def joinedType : Reader Node := do
  require (joinsTypes (← behindOperand))
  symbol "&"
  simpleType

/-- An intersection in parentheses. -/
def groupedType : Reader Node :=
  between "(" ")" (nodeOf .intersectionType do return (← simpleType) :: (← many joinedType))

/-- A member of a union. -/
def unionMember : Reader Node := do
  if ← nextIs "(" then groupedType else simpleType

/-- A type: the first member decides nothing, the sign behind it does. -/
def typeHint : Reader Node := do
  gap
  let start ← position
  let grouped ← nextIs "("
  let first ← unionMember
  if !grouped && joinsTypes (← behindOperand) then
    nodeFrom .intersectionType start (first :: (← many joinedType))
  else
    let more ← many do
      require (← thenIs "|")
      symbol "|"
      unionMember
    if more.isEmpty && !grouped then return first
    else nodeFrom .unionType start (first :: more)

/-- A return type behind a colon, if there is one. The type of what never returns stands alone. -/
def returnType : Reader (List Node) := do
  if ← thenIs ":" then
    symbol ":"
    if exactWordAt (← ahead) == "never" then
      let n ← identifier
      return [.mk .primitiveType n.start n.stop []]
    else return [← typeHint]
  else return []

end FacadeStubs.Php
