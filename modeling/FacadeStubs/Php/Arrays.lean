import FacadeStubs.Php.Operators
import FacadeStubs.Php.Parameters

/-!
# Arrays and lists

The elements of arrays, and the lists of variables that an array is taken apart into. In both,
nothing may stand between two commas. A stretch outside the tags on either side of the arrow is a
part of its element.
-/
namespace FacadeStubs.Php

open Lexical Reader

/-- Slots with commas between them, where a slot that ends at once is empty. -/
def slots (closing : String) (entry : Reader Node) : Reader (List Node) := do
  let first ← slot
  let more ← many (comma *> slot)
  return first ++ more.flatten
where
  slot : Reader (List Node) := do
    let bytes ← openAhead
    if beginsWith "," bytes || beginsWith closing bytes then return [] else return [← entry]

/-! ## Arrays -/

/-- An element of an array: a value, a key and a value, or another array unpacked. -/
def arrayElement (g : Grammar) : Reader Node := do
  openGap
  let start ← position
  let bytes ← remaining
  if beginsWith "..." bytes then
    let e ← unpacking g
    nodeFrom .arrayElement start [e]
  else if beginsWith "&" bytes then
    let r ← byReference g
    nodeFrom .arrayElement start [r]
  else
    let first ← g.expression Strength.any
    if ← thenIs "=>" then
      let before ← interpolations false
      symbol "=>"
      let behind ← interpolations true
      let second ← if beginsWith "&" (← remaining) then byReference g else g.expression Strength.any
      nodeFrom .arrayElement start (first :: before ++ behind ++ [second])
    else nodeFrom .arrayElement start [first]

/-- Array elements between two signs. -/
def arrayElements (g : Grammar) (opening closing : String) : Reader (List Node) :=
  between opening closing (slots closing (arrayElement g))

/-! ## Lists -/

/-- What a value of a list goes to: something that can be assigned to, a reference, or another
list. -/
def listTarget (g : Grammar) (nested : Reader Node) : Reader Node := do
  let bytes ← ahead
  if wordAt bytes == "list" then nested
  else if beginsWith "&" bytes then byReference g
  else g.place

/-- An entry of a list: a target, with a key in front or none. -/
def listEntry (g : Grammar) (nested : Reader Node) : Reader Node := do
  openGap
  let start ← position
  let bytes ← remaining
  if wordAt bytes == "list" || beginsWith "&" bytes then
    let target ← listTarget g nested
    nodeFrom .arrayElement start [target]
  else
    let first ← g.expression Strength.any
    if ← nextIs "=>" then
      symbol "=>"
      let target ← listTarget g nested
      nodeFrom .arrayElement start [first, target]
    else
      require first.kind.isPlace
      nodeFrom .arrayElement start [first]

/-- A list behind its keyword, nested as deeply as `depth` says. -/
def listWithin (g : Grammar) : Nat → Reader Node
  | 0 => failure
  | depth + 1 =>
    nodeOf .expression do
      keyword "list"
      between "(" ")" (slots ")" (listEntry g (listWithin g depth)))

/-- A list behind its keyword. -/
def listPattern (g : Grammar) : Reader Node := do listWithin g (← turns)

end FacadeStubs.Php
