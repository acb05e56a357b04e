import FacadeStubs.Php.Parameters

/-!
# Class-like declarations in source

Classes, interfaces, traits and enums with their members. Enums have cases and no constants or
properties, the others have no cases.
-/
namespace FacadeStubs.Php

open Lexical Reader

/-! ## Members -/

/-- A constant and its value. -/
def constElement (g : Grammar) : Reader Node :=
  nodeOf .constElement do
    let name ← identifier
    symbol "="
    return [name, ← g.expression Strength.any]

/-- Whether a name and an equals sign come next. A type keyword is no name, but for `static`. -/
def atConstName (bytes : Bytes) : Bool :=
  let n := nameLength bytes
  let rest := bytes.drop n
  n != 0 && (!atPrimitiveType bytes || wordAt bytes == "static") &&
    beginsWith "=" (rest.drop (gaps rest))

/-- Constants, with a type in front if they have one. -/
def constants (g : Grammar) : Reader (List Node) := do
  keyword "const"
  let type ← if atConstName (← ahead) then pure [] else maybeNode typeHint
  let elements ← last (commaList1 (constElement g))
  semicolon
  return type ++ elements

/-- The head of a method and its body, if it has one. -/
def methodParts (g : Grammar) : Reader (List Node) := do
  keyword "function"
  let reference ← maybeNode (leaf .referenceModifier (symbol "&"))
  let name ← identifier
  let ps ← parameters g
  last do
    let type ← returnType
    let body ← if ← thenIs "\x7b" then (fun n => [n]) <$> block g else do
      semicolon
      pure []
    return reference ++ [name, ps] ++ type ++ body

/-- Properties of one declaration. -/
def properties (g : Grammar) : Reader (List Node) := do
  let type ← maybeNode typeHint
  last do
    let elements ← commaList1 do
      let name ← dollarName
      return name :: (← defaultValue g)
    let accessors ← if ← thenIs "\x7b" then (fun n => [n]) <$> hooks g (parameters g) else do
      semicolon
      pure []
    return type ++ elements.flatten ++ accessors

/-- Whether a name and the word for a new name come next. -/
def atRenamed (bytes : Bytes) : Bool :=
  let n := nameLength bytes
  let rest := bytes.drop n
  n != 0 && wordAt (rest.drop (gaps rest)) == "as"

/-- A rule between traits: which method gives way, or which gets another name or visibility. Only a
method named together with its trait can make another one give way. -/
def adaptation (g : Grammar) : Reader Node := do
  let subject ← if atRenamed (← ahead) then identifier else do
    let o ← g.operand
    require (o.node.kind == .classConstant)
    pure o.node
  if (← nextWord) == "insteadof" then
    keyword "insteadof"
    let _ ← identifier
  else
    keyword "as"
    if isVisibility (← nextWord) then
      let _ ← modifier
      last do
        let _ ← maybe do
          require (nameLength (← behindOperand) != 0)
          identifier
    else
      let _ ← identifier
  semicolon
  nodeFrom .member subject.start [subject]

/-- The traits that a body uses, with rules between them in braces or none. -/
def traitUse (g : Grammar) : Reader (List Node) := do
  keyword "use"
  last do
    let names ← nameList
    let rules ← if ← thenIs "\x7b" then between "\x7b" "\x7d" (many (adaptation g)) else do
      semicolon
      pure []
    return names ++ rules

/-- A case of an enum. -/
def enumCase (g : Grammar) : Reader (List Node) := do
  keyword "case"
  let name ← identifier
  let value ← last (defaultValue g)
  semicolon
  return name :: value

/-- A member of a class-like declaration. -/
def member (g : Grammar) (inEnum : Bool) : Reader Node := do
  openGap
  let start ← position
  if (← nextWord) == "use" then nodeFrom .traitUse start (← traitUse g)
  else
    let attrs ← maybeNode (attributes g)
    if inEnum && (← nextWord) == "case" then
      nodeFrom .member start (attrs ++ (← enumCase g))
    else
      let modifiers ← many modifier
      let front := attrs ++ modifiers
      match ← nextWord with
      | "function" => nodeFrom .method start (front ++ (← methodParts g))
      | "const" =>
        require !inEnum
        nodeFrom .constDeclaration start (front ++ (← constants g))
      | _ =>
        require (!inEnum && !modifiers.isEmpty)
        nodeFrom .member start (front ++ (← properties g))

/-- Members in braces. -/
def memberList (g : Grammar) (inEnum : Bool) : Reader Node :=
  nodeOf .memberList (between "\x7b" "\x7d" (many (member g inEnum)))

/-! ## Declarations -/

/-- Names behind a keyword, if it comes next. -/
def nameClause (kind : Kind) (word : String) : Reader (List Node) := do
  if (← nextWord) == word then
    return [← nodeOf kind do
      keyword word
      nameList]
  else return []

/-- The part of a class behind its name, if it has one: parents, interfaces, members. -/
def classTail (g : Grammar) : Reader (List Node) := do
  let base ← nameClause .baseClause "extends"
  let faces ← nameClause .interfaceClause "implements"
  return base ++ faces ++ [← memberList g false]

/-- The type of the values of an enum, if it has some. -/
def enumType : Reader Unit := do
  if ← nextIs ":" then
    symbol ":"
    require (["int", "string"].contains (exactWordAt (← ahead)))
    let _ ← identifier

/-- A class-like declaration, or constants, behind the attributes. -/
def declarationFrom (g : Grammar) (start : Nat) (attrs : List Node) : Reader Node := do
  match ← nextWord with
  | "interface" =>
    keyword "interface"
    let name ← identifier
    let base ← nameClause .baseClause "extends"
    nodeFrom (.declaration .interface) start (attrs ++ [name] ++ base ++ [← memberList g false])
  | "trait" =>
    keyword "trait"
    let name ← identifier
    nodeFrom (.declaration .trait) start (attrs ++ [name, ← memberList g false])
  | "enum" =>
    keyword "enum"
    let name ← identifier
    enumType
    let faces ← nameClause .interfaceClause "implements"
    nodeFrom (.declaration .enum) start (attrs ++ [name] ++ faces ++ [← memberList g true])
  | _ =>
    let modifiers ← many modifier
    if (← nextWord) == "const" then
      nodeFrom .statement start (attrs ++ modifiers ++ (← constants g))
    else
      keyword "class"
      let name ← identifier
      nodeFrom (.declaration .cls) start (attrs ++ modifiers ++ [name] ++ (← classTail g))

end FacadeStubs.Php
