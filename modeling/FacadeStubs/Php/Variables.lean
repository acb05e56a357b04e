import FacadeStubs.Php.Reader

/-!
# Variables

Variables by their name, or by the value of another variable or of an expression, and references to
what can be assigned to.
-/
namespace FacadeStubs.Php

open Lexical Reader

/-- A variable by its name, or by the value of another variable or expression. -/
def simpleVariable (g : Grammar) : Reader Node := do go (← turns)
where
  go : Nat → Reader Node
    | 0 => failure
    | fuel + 1 => do
      gap
      let start ← position
      symbol "$"
      let bytes ← ahead
      if beginsWith "$" bytes then
        let v ← go fuel
        nodeFrom .place start [v]
      else if beginsWith "\x7b" bytes then
        let e ← between "\x7b" "\x7d" (g.expression Strength.any)
        nodeFrom .place start [e]
      else
        let _ ← identifier
        nodeFrom .dollarName start []

/-- A reference to something that can be assigned to. -/
def byReference (g : Grammar) : Reader Node :=
  nodeOf .byReference do
    symbol "&"
    return [← g.place]

end FacadeStubs.Php
