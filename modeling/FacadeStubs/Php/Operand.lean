import FacadeStubs.Php.Tree

/-!
# Operands

An operand is read from its first token on, together with the members, elements and arguments behind
it. What else may follow depends on two things: whether it can be assigned to (`Extent`), and how
tightly its own parts hold together (`Rank`).
-/
namespace FacadeStubs.Php

/-- What may stand behind an operand. -/
inductive Extent where
  /-- Something that can be assigned to: all that a value may have, a step up or down, and an
  assignment. -/
  | place
  /-- An array in brackets: all that a value may have, and an assignment if its elements can be
  assigned to. -/
  | pattern
  /-- A value: members, elements, constants and arguments. -/
  | value
  /-- Nothing. -/
  | closed
  deriving DecidableEq, Repr

/-- What may stand in front of an operand, and whether its class may be tested. -/
inductive Rank where
  /-- May be copied and cast, and its class may be tested. -/
  | primary
  /-- May be cast, and its class may be tested. -/
  | unary
  /-- May be cast. -/
  | castable
  /-- None of these. -/
  | loose
  deriving DecidableEq, Repr

/-- An operand with what it admits around it. -/
structure Operand where
  node : Node
  extent : Extent
  rank : Rank
  deriving Repr

namespace Operand

/-- An operand that can be assigned to. -/
def place (node : Node) : Operand := ⟨node, .place, .primary⟩

/-- A value that members, elements and arguments may follow. -/
def value (node : Node) : Operand := ⟨node, .value, .primary⟩

/-- An operand that nothing of its own may follow. -/
def closed (rank : Rank) (node : Node) : Operand := ⟨node, .closed, rank⟩

/-- Whether the class of an operand may be tested. -/
def isTestable (o : Operand) : Bool := o.rank == .primary || o.rank == .unary

end Operand

/-! ## Patterns -/

mutual

/-- Whether a node can be assigned to by parts: something that can be assigned to, a reference, or
an array in brackets of such. -/
def Node.isPattern : Node → Bool
  | .mk kind _ _ children =>
    match kind with
    | .byReference => true
    | .arrayCreation => arePatterns children
    | _ => kind.isPlace

/-- Whether the value of each of these elements is a pattern. -/
def arePatterns : List Node → Bool
  | [] => true
  | .mk _ _ _ parts :: rest => endsInPattern parts && arePatterns rest

/-- Whether the last of these nodes is a pattern. -/
def endsInPattern : List Node → Bool
  | [] => false
  | [n] => n.isPattern
  | _ :: n :: rest => endsInPattern (n :: rest)

end

end FacadeStubs.Php
