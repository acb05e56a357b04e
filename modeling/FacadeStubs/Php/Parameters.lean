import FacadeStubs.Php.Types
import FacadeStubs.Php.Variables

/-!
# Arguments, attributes and parameters

What stands in parentheses behind the name of a function, in a call and in a declaration, and the
attributes and modifiers in front of declarations and parameters.
-/
namespace FacadeStubs.Php

open Lexical Reader

/-- Statements in braces. -/
def block (g : Grammar) : Reader Node :=
  nodeOf .block (between "\x7b" "\x7d" (many g.statement))

/-! ## Arguments -/

/-- The words that introduce an operand and cannot name an argument. -/
def operandOnlyWords : List String :=
  ["new", "clone", "print", "include", "include_once", "require", "require_once", "yield", "list"]

/-- Whether a name and a single colon come next: the name of an argument. -/
def atArgumentName (bytes : Bytes) : Bool :=
  let n := nameLength bytes
  let rest := bytes.drop n
  let next := rest.drop (gaps rest)
  floatLength bytes < n && !operandOnlyWords.contains (wordAt bytes) &&
    beginsWith ":" next && !beginsWith "::" next

/-- Whether a word for a relative class comes next, and an argument ends behind it. -/
def atScopeArgument (bytes : Bytes) : Bool :=
  let rest := bytes.drop (nameLength bytes)
  let next := rest.drop (gaps rest)
  isRelativeScope bytes && (beginsWith "," next || beginsWith ")" next)

/-- Three dots and the value that is unpacked. -/
def unpacking (g : Grammar) : Reader Node :=
  nodeOf .unpacking do
    symbol "..."
    return [← g.expression Strength.any]

/-- An argument: an expression or a word for a relative class, which may have a name and may be
unpacked. -/
def argument (g : Grammar) : Reader Node := do
  if atArgumentName (← openAhead) then
    openGap
    let _ ← identifier
    symbol ":"
  let _ ← maybe (symbol "&")
  let bytes ← openAhead
  if atScopeArgument bytes then identifier
  else if beginsWith "..." bytes then unpacking g
  else g.expression Strength.any

/-- The dots of a partial call, which stand alone. -/
def partialCall : Reader (List Node) := do
  let dots ← leaf .unpacking (symbol "...")
  require (← nextIs ")")
  return [dots]

/-- Arguments in parentheses. -/
def arguments (g : Grammar) : Reader Node :=
  nodeOf .arguments (between "(" ")" (partialCall <|> openList (argument g)))

/-! ## Attributes and modifiers -/

/-- One attribute: a name, and arguments if it has some. -/
def oneAttribute (g : Grammar) : Reader (List Node) := do
  let _ ← anyName
  if ← nextIs "(" then return [← arguments g] else return []

/-- Attributes in front of a declaration, in one or more groups. -/
def attributes (g : Grammar) : Reader Node := do
  openGap
  let start ← position
  let groups ← many do
    openGap
    require (beginsWith "#[" (← remaining))
    advance 2
    let entries ← inner (openList1 (oneAttribute g))
    symbol "]"
    return entries.flatten
  require !groups.isEmpty
  nodeFrom .attributes start groups.flatten

/-- The kind of a modifier. -/
def modifierKind? : String → Option Kind
  | "public" | "protected" | "private" => some .visibilityModifier
  | "static" => some .staticModifier
  | "abstract" => some .abstractModifier
  | "final" | "readonly" | "var" => some .otherModifier
  | _ => none

/-- Whether a word is a modifier. -/
def isModifier (word : String) : Bool := (modifierKind? word).isSome

/-- Whether a word is the modifier of a visibility. -/
def isVisibility (word : String) : Bool := modifierKind? word == some .visibilityModifier

/-- The operation that a visibility is limited to: a word in parentheses, without blanks. -/
def visibilityOperation : Reader Unit := do
  let bytes ← remaining
  if beginsWith "(" bytes then
    let n := ((bytes.drop 1).takeWhile fun b => 97 ≤ b && b ≤ 122).length
    require (n != 0 && beginsWith ")" (bytes.drop (n + 1)))
    advance (n + 2)

/-- A modifier. -/
def modifier : Reader Node := do
  let word ← nextWord
  match modifierKind? word with
  | none => failure
  | some kind =>
    leaf kind do
      keyword word
      if kind == .visibilityModifier then visibilityOperation

/-! ## Parameters -/

/-- A default behind an equals sign, if there is one. -/
def defaultValue (g : Grammar) : Reader (List Node) := do
  if ← thenIs "=" then
    symbol "="
    let e ← g.expression Strength.any
    return [.mk .defaultValue e.start e.stop [e]]
  else return []

/-- What is done when a property is read or written, where `parameterList` reads the parameters. -/
def hook (g : Grammar) (parameterList : Reader Node) : Reader (List Node) := do
  let attrs ← maybeNode (attributes g)
  if (← nextWord) == "final" then keyword "final"
  let _ ← maybe (symbol "&")
  let _ ← identifier
  last do
    let ps ← if ← thenIs "(" then (fun n => [n]) <$> parameterList else pure []
    if ← thenIs "=>" then
      symbol "=>"
      let e ← g.expression Strength.any
      semicolon
      return attrs ++ ps ++ [e]
    else if ← thenIs "\x7b" then return attrs ++ ps ++ [← block g]
    else
      semicolon
      return attrs ++ ps

/-- The hooks of a property in braces. -/
def hooks (g : Grammar) (parameterList : Reader Node) : Reader Node :=
  nodeOf .member do
    let entries ← between "\x7b" "\x7d" (many (hook g parameterList))
    return entries.flatten

/-- A parameter. A visibility makes it a property too, which may have hooks. -/
def parameter (g : Grammar) (parameterList : Reader Node) : Reader Node := do
  openGap
  let start ← position
  let attrs ← maybeNode (attributes g)
  if isVisibility (← nextWord) then
    let visibility ← modifier
    let readonly ← if (← nextWord) == "readonly" then maybeNode modifier else pure []
    let type ← maybeNode typeHint
    let name ← if ← nextIs "&" then byReference g else dollarName
    let default ← defaultValue g
    let accessors ← if ← nextIs "\x7b" then maybeNode (hooks g parameterList) else pure []
    nodeFrom .promotedParameter start
      (attrs ++ [visibility] ++ readonly ++ type ++ [name] ++ default ++ accessors)
  else
    let type ← maybeNode typeHint
    let reference ← maybeNode (leaf .referenceModifier (symbol "&"))
    let front := attrs ++ type ++ reference
    if ← nextIs "..." then
      symbol "..."
      let name ← dollarName
      nodeFrom .variadicParameter start (front ++ [name])
    else
      let name ← dollarName
      let default ← defaultValue g
      nodeFrom .simpleParameter start (front ++ [name] ++ default)

/-- Parameters in parentheses, with hooks nested as deeply as `depth` says. -/
def parametersWithin (g : Grammar) : Nat → Reader Node
  | 0 => failure
  | depth + 1 => do
    gap
    nodeOf .parameters (between "(" ")" (openList (parameter g (parametersWithin g depth))))

/-- Parameters in parentheses. -/
def parameters (g : Grammar) : Reader Node := do parametersWithin g (← turns)

end FacadeStubs.Php
