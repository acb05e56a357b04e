import FacadeStubs.Php.Statement

/-!
# Parsing a file

The entry points of the grammar call each other through `Grammar`. `Grammar.upTo n` is the grammar
of sources whose nesting is below `n`. A rule reads a byte before it uses the grammar; only an
expression that stands as a statement has its byte, the semicolon, behind it. So nesting below the
number of bytes is all that a source can have.
-/
namespace FacadeStubs.Php

open Lexical Reader

/-- The grammar down to a depth of nesting. -/
def Grammar.upTo (longHeredocs : Bool) : Nat → Grammar
  | 0 => ⟨fun _ => failure, failure, failure, longHeredocs⟩
  | n + 1 =>
    let g := upTo longHeredocs n
    ⟨expressionWith g, operandWith g, statementWith g, longHeredocs⟩

/-- Statements up to the end of the source. -/
def program (g : Grammar) : Reader Node := do
  match outsideText? false true (← remaining) with
  | none => failure
  | some n =>
    advance n
    let statements ← many g.statement
    gap
    require (← remaining).isEmpty
    return .mk .program 0 (← position) statements

/-- The tree of a source by one reading of its heredocs. -/
def parseBy? (longHeredocs : Bool) (source : Bytes) : Option Node :=
  let g := Grammar.upTo longHeredocs (source.length + 1)
  ((program g).run { rest := source, offset := 0, size := source.length }).map (·.1)

/-- The tree of a source; none if the source is not in the grammar. Heredocs are as long as they can
be, if the source can be read so. -/
def parse? (source : Bytes) : Option Node :=
  match parseBy? true source with
  | some tree => some tree
  | none => parseBy? false source

end FacadeStubs.Php
