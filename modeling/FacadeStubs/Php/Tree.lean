import FacadeStubs.Declaration
import FacadeStubs.Text.Utf8

/-!
# Syntax trees

A PHP source file as a tree of nodes. A node knows its kind, the bytes it covers and its children in
document order; comments and punctuation are no nodes. A stretch outside the tags is a node only
where it changes how its neighbours are read. Kinds that no question is ever asked about are lumped
together (`statement`, `expression`, `member`): their children are all that matters.
-/
namespace FacadeStubs.Php

/-- What a node is. -/
inductive Kind where
  | program
  /-- A stretch outside the tags. -/
  | interpolation
  -- names
  | name
  | qualifiedName
  | namespaceName
  | dollarName
  /-- `self`, `static` or `parent` in front of `::`. -/
  | relativeScope
  -- declarations
  | namespaceDefinition
  | namespaceUse
  | declaration (kind : ClassKind)
  | baseClause
  | interfaceClause
  | memberList
  | method
  | constDeclaration
  | constElement
  | traitUse
  | member
  | attributes
  | visibilityModifier
  | staticModifier
  | abstractModifier
  | otherModifier
  | referenceModifier
  -- parameters and types
  | parameters
  | simpleParameter
  | variadicParameter
  | promotedParameter
  | defaultValue
  | namedType
  | primitiveType
  | optionalType
  | unionType
  | intersectionType
  -- statements
  | block
  | returnStatement
  | statement
  -- expressions
  | nullLiteral
  | booleanLiteral
  | integerLiteral
  | floatLiteral
  | plainString
  | encapsedString
  | parenthesized
  | unaryOperation
  | binaryOperation
  | operator
  /-- An array in brackets. -/
  | arrayCreation
  /-- An array behind its keyword. -/
  | longArray
  | arrayElement
  | unpacking
  | byReference
  | arguments
  | classConstant
  | scopedCall
  | scopedProperty
  | objectCreation
  /-- What can be assigned to: a variable by its value, an element, a member, or the value of a
  call. -/
  | place
  | expression
  deriving Repr, DecidableEq, Inhabited

/-- A node covers the bytes from `start` up to, but not including, `stop`. -/
inductive Node where
  | mk (kind : Kind) (start stop : Nat) (children : List Node)
  deriving Repr, Inhabited

namespace Node

mutual

/-- Nodes can be compared. -/
def decideEq : (a b : Node) → Decidable (a = b)
  | .mk kind start stop below, .mk kind' start' stop' below' =>
    if h : kind = kind' ∧ start = start' ∧ stop = stop' then
      match decideAllEq below below' with
      | .isTrue hbelow => .isTrue (by rw [h.1, h.2.1, h.2.2, hbelow])
      | .isFalse hbelow => .isFalse fun heq => hbelow (Node.mk.inj heq).2.2.2
    else .isFalse fun heq => h ((Node.mk.inj heq).imp_right fun h => h.imp_right And.left)

/-- So can rows of nodes. -/
def decideAllEq : (as bs : List Node) → Decidable (as = bs)
  | [], [] => .isTrue rfl
  | [], _ :: _ => .isFalse nofun
  | _ :: _, [] => .isFalse nofun
  | a :: as, b :: bs =>
    match decideEq a b, decideAllEq as bs with
    | .isTrue h, .isTrue hs => .isTrue (by rw [h, hs])
    | .isFalse h, _ => .isFalse fun heq => h (List.cons.inj heq).1
    | _, .isFalse hs => .isFalse fun heq => hs (List.cons.inj heq).2

end

instance : DecidableEq Node := decideEq
def kind : Node → Kind
  | mk k _ _ _ => k

def start : Node → Nat
  | mk _ s _ _ => s

def stop : Node → Nat
  | mk _ _ s _ => s

def children : Node → List Node
  | mk _ _ _ cs => cs

/-- The first child of a kind. -/
def child? (n : Node) (kind : Kind) : Option Node := n.children.find? fun c => c.kind == kind

/-- The bytes that a node covers. -/
def bytes (source : Bytes) (n : Node) : Bytes := (source.drop n.start).take (n.stop - n.start)

/-- The text of a node; bytes that are no text read as the empty string. -/
def text (source : Bytes) (n : Node) : String :=
  match Utf8.decode? (n.bytes source) with
  | some cs => String.ofList cs
  | none => ""

/-- The line on which a node starts, from 1. -/
def line (source : Bytes) (n : Node) : Nat := (source.take n.start).count 10 + 1

end Node

/-- Whether something of a kind can be assigned to. -/
def Kind.isPlace : Kind → Bool
  | .dollarName | .place | .scopedProperty | .scopedCall => true
  | _ => false

/-- Whether a kind is that of a type. -/
def Kind.isType : Kind → Bool
  | .namedType | .primitiveType | .optionalType | .unionType | .intersectionType => true
  | _ => false

end FacadeStubs.Php
