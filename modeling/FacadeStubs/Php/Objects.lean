import FacadeStubs.Php.Arrays
import FacadeStubs.Php.Declarations

/-!
# Members, objects and functions

What stands behind arrows and double colons, what names a class behind `new` or `instanceof`, new
objects, and functions without a name.
-/
namespace FacadeStubs.Php

open Lexical Reader

/-! ## Members -/

/-- The member behind an arrow or a double colon: a name, a variable, or an expression in braces. -/
def memberName (g : Grammar) : Reader Node := do
  if ← nextIs "$" then simpleVariable g
  else if ← nextIs "\x7b" then
    let e ← between "\x7b" "\x7d" (g.expression Strength.any)
    return .mk .name e.start e.stop [e]
  else identifier

/-- Arguments, if they come next. -/
def maybeArguments (g : Grammar) : Reader (List Node) := do
  if ← thenIs "(" then return [← arguments g] else return []

/-- The arrow at the front, behind which a member of an object stands. -/
def arrowAt? (bytes : Bytes) : Option String :=
  ["->", "?->"].find? fun arrow => beginsWith arrow bytes

/-- An element in brackets, which may be left out. -/
def subscript (g : Grammar) : Reader (List Node) :=
  between "[" "]" do
    if ← nextIs "]" then return [] else return [← g.expression Strength.any]

/-! ## Class references -/

/-- An expression in parentheses, with the stretches outside the tags in front of it. -/
def parenthesized (g : Grammar) : Reader Node :=
  nodeOf .parenthesized do
    between "(" ")" do
      let before ← interpolations true
      return before ++ [← g.expression Strength.any]

/-- Whether the bytes begin with a double colon and a variable. -/
def atStaticProperty (bytes : Bytes) : Bool :=
  let rest := bytes.drop 2
  beginsWith "::" bytes && beginsWith "$" (rest.drop (gaps rest))

/-- Members and elements behind a variable that holds a class. -/
def heldBehind (g : Grammar) : Nat → Node → Reader Node
  | 0, node => return node
  | fuel + 1, node => do
    let bytes ← behindOperand
    if let some arrow := arrowAt? bytes then
      symbol arrow
      let name ← memberName g
      heldBehind g fuel (← nodeFrom .place node.start [node, name])
    else if atStaticProperty bytes then
      symbol "::"
      let v ← simpleVariable g
      heldBehind g fuel (← nodeFrom .scopedProperty node.start [node, v])
    else if beginsWith "[" bytes then
      let e ← subscript g
      heldBehind g fuel (← nodeFrom .place node.start (node :: e))
    else return node

/-- What stands behind `new` or `instanceof` for a class: a name, a variable that holds one, or an
expression in parentheses. -/
def classReference (g : Grammar) : Reader Node := do
  let fuel ← turns
  let bytes ← ahead
  if beginsWith "(" bytes then parenthesized g
  else if beginsWith "$" bytes then heldBehind g fuel (← simpleVariable g)
  else
    let name ← anyName
    if atStaticProperty (← behindOperand) then heldBehind g fuel name else return name

/-! ## New objects -/

/-- Whether a class without a name comes next: attributes, modifiers, or the keyword. The word
`static` may also name the class of the object. -/
def atClassBody (bytes : Bytes) : Bool :=
  let word := wordAt bytes
  let rest := bytes.drop (nameLength bytes)
  let next := wordAt (rest.drop (gaps rest))
  beginsWith "#[" bytes || word == "class" ||
    (isModifier word && (word != "static" || next == "class" || isModifier next))

/-- The class without a name that an object is made of. -/
def classWithoutName (g : Grammar) : Reader (List Node) := do
  let attrs ← maybeNode (attributes g)
  let modifiers ← many modifier
  keyword "class"
  let args ← if ← nextIs "(" then maybeNode (arguments g) else pure []
  return attrs ++ modifiers ++ args ++ (← classTail g)

/-- A new object. Something may follow it if it has arguments. -/
def objectCreation (g : Grammar) : Reader Operand := do
  gap
  let start ← position
  keyword "new"
  let before ← interpolations true
  if atClassBody (← remaining) then
    let parts ← inner (classWithoutName g)
    return .value (← nodeFrom .expression start parts)
  else
    let ref ← classReference g
    let args ← maybeArguments g
    let made ← nodeFrom .objectCreation start (before ++ ref :: args)
    return if args.isEmpty then .closed .primary made else .value made

/-! ## Functions without a name -/

/-- The variables that a function takes over from where it stands. -/
def takenOver (g : Grammar) : Reader (List Node) := do
  if (← nextWord) == "use" then
    keyword "use"
    between "(" ")" (openList1 do
      if ← nextIs "&" then byReference g else dollarName)
  else return []

/-- A function without a name, behind its attributes. -/
def closure (g : Grammar) (start : Nat) (attrs : List Node) : Reader Node := do
  let _ ← maybe (keyword "static")
  if (← nextWord) == "fn" then
    let head ← inner do
      keyword "fn"
      let _ ← maybe (symbol "&")
      let ps ← parameters g
      let type ← returnType
      symbol "=>"
      return ps :: type
    let body ← g.expression Strength.any
    nodeFrom .expression start (attrs ++ head ++ [body])
  else
    inner do
      keyword "function"
      let _ ← maybe (symbol "&")
      let ps ← parameters g
      let taken ← takenOver g
      let type ← returnType
      let body ← block g
      nodeFrom .expression start (attrs ++ [ps] ++ taken ++ type ++ [body])

end FacadeStubs.Php
