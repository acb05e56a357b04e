import FacadeStubs.Php.Heredoc
import FacadeStubs.Php.Objects

/-!
# Expressions

An expression is a row of operands with binary operators between them. An operand is read in two
steps. `operandWith` reads its first token or form with the members, elements and arguments behind
it; `completed` reads what takes the whole: an assignment, or a test for a class.
-/
namespace FacadeStubs.Php

open Lexical Reader

/-! ## Behind an operand -/

/-- A member of a class behind a double colon: a constant, a property, or a method that is called.
Stretches outside the tags on either side of the colons are parts of a constant. -/
def scopedMember (g : Grammar) (scope : Node) : Reader Operand := do
  let before ← interpolations false
  symbol "::"
  let behind ← interpolations false
  let name ← memberName g
  match ← maybeArguments g with
  | [] =>
    if name.kind == .name then
      return .value (← nodeFrom .classConstant scope.start (scope :: before ++ behind ++ [name]))
    else return .place (← nodeFrom .scopedProperty scope.start [scope, name])
  | args => return .place (← nodeFrom .scopedCall scope.start (scope :: name :: args))

/-- One thing behind an operand. -/
def extension (g : Grammar) (o : Operand) : Reader Operand := do
  let bytes ← behindOperand
  let start := o.node.start
  if let some arrow := arrowAt? bytes then
    symbol arrow
    let name ← memberName g
    let args ← maybeArguments g
    return .place (← nodeFrom .place start (o.node :: name :: args))
  else if beginsWith "::" bytes then scopedMember g o.node
  else if beginsWith "[" bytes then
    let e ← subscript g
    return .place (← nodeFrom .place start (o.node :: e))
  else if beginsWith "(" bytes then
    let args ← arguments g
    return .place (← nodeFrom .place start [o.node, args])
  else
    require (o.extent == .place && (beginsWith "++" bytes || beginsWith "--" bytes))
    gap
    advance 2
    return .closed .primary (← nodeFrom .expression start [o.node])

/-- All that stands behind an operand. -/
def extensionsWithin (g : Grammar) : Nat → Operand → Reader Operand
  | 0, o => return o
  | fuel + 1, o => do
    if o.extent == .closed then return o
    else
      match ← maybe (extension g o) with
      | some o' => extensionsWithin g fuel o'
      | none => return o

/-- The value behind an equals sign, to which the sign of a reference may be added. -/
def assignedValue (g : Grammar) : Reader Node := do
  symbol "="
  let _ ← maybe (symbol "&")
  g.expression Strength.assigned

/-- An operand with what takes the whole of it: an assignment or a test for a class, if there is
one. -/
def completed (g : Grammar) (o : Operand) : Reader Node := do
  let bytes ← behindOperand
  let start := o.node.start
  match if o.extent == .place then combiningAssignmentAt? bytes else none with
  | some sign =>
    symbol sign
    let value ← g.expression Strength.assigned
    nodeFrom .expression start [o.node, value]
  | none =>
    if atAssignment bytes && (o.extent == .place || (o.extent == .pattern && o.node.isPattern)) then
      let value ← assignedValue g
      nodeFrom .expression start [o.node, value]
    else if o.isTestable && wordAt bytes == "instanceof" then
      let sign ← leaf .operator (keyword "instanceof")
      let ref ← classReference g
      nodeFrom .binaryOperation start [o.node, sign, ref]
    else return o.node

/-- An operand that a sign in front of it takes: all but binary operations. -/
def signedOperand (g : Grammar) : Reader Node := do completed g (← g.operand)

/-! ## Forms that a word introduces -/

/-- A word and an expression behind it. -/
def introduced (g : Grammar) (rank : Rank) (word : String) : Reader Operand := do
  let n ← nodeOf .expression do
    keyword word
    return [← g.expression Strength.any]
  return .closed rank n

/-- A copy of an object. -/
def copy (g : Grammar) : Reader Operand := do
  let n ← nodeOf .expression do
    keyword "clone"
    let o ← g.operand
    require (o.rank == .primary)
    return [o.node]
  return .closed .unary n

/-- The words that go on an expression, so that no operand begins with them behind `yield`. -/
def connectives : List String := ["and", "or", "xor", "as"]

/-- A generator's yield: nothing, an element as in an array, or another generator. -/
def yieldExpression (g : Grammar) : Reader Node :=
  nodeOf .expression do
    keyword "yield"
    let bytes ← behindOperand
    let word := wordAt bytes
    if word == "from" then
      keyword "from"
      return [← g.expression Strength.any]
    else if bytes.isEmpty || connectives.contains word then return []
    else maybeNode (arrayElement g)

/-- One arm of a choice: conditions, or the word for all other cases, and a value. -/
def matchArm (g : Grammar) : Reader (List Node) := do
  let conditions ← if (← nextWord) == "default" then do
      keyword "default"
      pure []
    else openList1 (g.expression Strength.any)
  symbol "=>"
  return conditions ++ [← g.expression Strength.any]

/-- A choice by comparison with conditions. -/
def matchExpression (g : Grammar) : Reader Node :=
  nodeOf .expression do
    keyword "match"
    let subject ← parenthesized g
    let arms ← between "\x7b" "\x7d" (openList (matchArm g))
    return subject :: arms.flatten

/-- A list behind its keyword and the array that is taken apart into it. -/
def listAssignment (g : Grammar) : Reader Node := do
  let pattern ← listPattern g
  require (atAssignment (← behindOperand))
  let value ← assignedValue g
  nodeFrom .expression pattern.start [pattern, value]

/-- An operand that a word introduces, or a name. A word for a relative class needs something of the
class behind it. -/
def wordOperand (g : Grammar) (bytes : Bytes) : Reader Operand := do
  let word := wordAt bytes
  let start ← position
  match word with
  | "new" => objectCreation g
  | "clone" => copy g
  | "print" | "throw" => introduced g .primary word
  | "include" | "include_once" => introduced g .castable word
  | "require" | "require_once" => introduced g .loose word
  | "yield" => return .closed .loose (← yieldExpression g)
  | "fn" | "function" => return .closed .primary (← closure g start [])
  | "match" => return .closed .loose (← matchExpression g)
  | "null" => return .closed .primary (← leaf .nullLiteral (keyword word))
  | "true" | "false" => return .closed .primary (← leaf .booleanLiteral (keyword word))
  | "list" => return .closed .loose (← listAssignment g)
  | "array" =>
    return .value (← nodeOf .longArray do
      keyword word
      arrayElements g "(" ")")
  | _ =>
    let rest := bytes.drop (nameLength bytes)
    let next := rest.drop (gaps rest)
    let nextName := wordAt next
    if word == "static" && (nextName == "fn" || nextName == "function") then
      return .closed .primary (← closure g start [])
    else if isRelativeScope bytes then
      if beginsWith "::" next then scopedMember g (← leaf .relativeScope (keyword word))
      else
        require ((arrowAt? next).isSome || beginsWith "[" next || beginsWith "(" next)
        return .value (← identifier)
    else return .value (← anyName)

/-! ## Operands -/

/-- The words of types to which a value can be cast. -/
def castTypes : List String :=
  ["array", "binary", "bool", "boolean", "double", "int", "integer", "float", "object", "real",
   "string", "unset"]

/-- Whether a cast comes next: a parenthesis and the word of a type, unless the word begins an
array. -/
def atCast (bytes : Bytes) : Bool :=
  beginsWith "(" bytes &&
    let rest := bytes.drop 1
    let here := rest.drop (gaps rest)
    let word := wordAt here
    let behind := here.drop (nameLength here)
    castTypes.contains word && !(word == "array" && beginsWith "(" (behind.drop (gaps behind)))

/-- A cast. That of something that can be assigned to can be assigned to as well. -/
def castOperand (g : Grammar) : Reader Operand := do
  gap
  let start ← position
  let _ ← between "(" ")" identifier
  let o ← g.operand
  require (o.rank != .loose)
  if o.extent == .place then return .place (← nodeFrom .place start [o.node])
  else return .closed .unary (← nodeFrom .expression start [o.node])

/-- A sign in front of an operand. -/
def signed (g : Grammar) (kind : Kind) (rank : Rank) (sign : String) : Reader Operand := do
  let n ← nodeOf kind do
    symbol sign
    return [← signedOperand g]
  return .closed rank n

/-- A step up or down in front of what is stepped. -/
def step (g : Grammar) (sign : String) : Reader Operand := do
  let n ← nodeOf .expression do
    symbol sign
    return [← g.place]
  return .closed .primary n

/-- A number: an integer or a float, whichever is longer. -/
def number : Reader Node := do
  gap
  let bytes ← remaining
  let n := integerLength bytes
  let m := floatLength bytes
  if m > n then leaf .floatLiteral (advance m)
  else
    require (n != 0)
    leaf .integerLiteral (advance n)

/-- Whether a number comes next. What can be read as a name as well is a name only if it is longer
so. -/
def atNumber (bytes : Bytes) : Bool :=
  let n := max (integerLength bytes) (floatLength bytes)
  n != 0 && nameLength bytes ≤ n

/-- Whether a string comes next, of any kind. -/
def atString (bytes : Bytes) : Bool :=
  beginsWith "'" bytes || beginsWith "\"" bytes || byteMark bytes != 0 || beginsWith "<<<" bytes

/-- A string of any kind. -/
def anyString (g : Grammar) : Reader Node := do
  let bytes ← ahead
  if beginsWith "<<<" bytes then heredoc g
  else if beginsWith "'" (bytes.drop (byteMark bytes)) then plainString
  else encapsedString g

/-- An operand without what follows it. -/
def primary (g : Grammar) : Reader Operand := do
  openGap
  let bytes ← remaining
  if atNumber bytes then return .closed .primary (← number)
  else if atString bytes then return .value (← anyString g)
  else if nameLength bytes != 0 then wordOperand g bytes
  else if beginsWith "$" bytes then return .place (← simpleVariable g)
  else if atCast bytes then castOperand g
  else if beginsWith "(" bytes then return .value (← parenthesized g)
  else if beginsWith "[" bytes then
    return ⟨← nodeOf .arrayCreation (arrayElements g "[" "]"), .pattern, .primary⟩
  else if beginsWith "#[" bytes then
    let start ← position
    let attrs ← attributes g
    return .closed .primary (← closure g start [attrs])
  else if beginsWith "++" bytes then step g "++"
  else if beginsWith "--" bytes then step g "--"
  else if beginsWith "@" bytes then signed g .expression .castable "@"
  else if beginsWith "\\" bytes then return .value (← anyName)
  else if bytes.head? == some 96 then return .closed .primary (← shellCommand g)
  else
    match ["+", "-", "!", "~"].find? fun sign => beginsWith sign bytes with
    | some sign => signed g .unaryOperation .unary sign
    | none => failure

/-- An operand with the members, elements and arguments behind it. -/
def operandWith (g : Grammar) : Reader Operand := do
  let o ← primary g
  extensionsWithin g (← turns) o

/-- An expression whose operators bind at least as tightly as `least`. -/
def expressionWith (g : Grammar) (least : Nat) : Reader Node := do
  let first ← completed g (← operandWith g)
  operationsWithin g least (← turns) first

end FacadeStubs.Php
