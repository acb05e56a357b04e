import FacadeStubs.Php.Variables

/-!
# Strings in source

Strings between single quotes are one token. Texts between double quotes or backticks may hold
variables and expressions, which become the children of their node.

Such a text is read in pieces: plain text as far as it goes, then an escape sequence, a variable or
an expression in braces. Behind the name of a variable an element or a member of it may follow,
once.
-/
namespace FacadeStubs.Php

open Lexical Reader

/-! ## Plain strings -/

/-- The length of the rest of a single-quoted string, with the quote that ends it. A backslash
takes the byte behind it along. -/
def singleQuoted? : Bytes → Option Nat
  | [] => none
  | a :: rest =>
    if a == 0 then none
    else if a == ascii '\'' then some 1
    else if a == ascii '\\' then
      match rest with
      | [] => none
      | b :: rest' => if b == 0 then none else (singleQuoted? rest').map (· + 2)
    else (singleQuoted? rest).map (· + 1)

/-- The byte mark that may stand in front of a quote. -/
def byteMark (bytes : Bytes) : Nat :=
  match bytes with
  | a :: b :: _ =>
    if (a == ascii 'b' || a == ascii 'B') && (b == ascii '\'' || b == ascii '"') then 1 else 0
  | _ => 0

/-- A string between single quotes. -/
def plainString : Reader Node :=
  leaf .plainString do
    let bytes ← remaining
    let mark := byteMark bytes
    require (beginsWith "'" (bytes.drop mark))
    match singleQuoted? (bytes.drop (mark + 1)) with
    | some n => advance (mark + 1 + n)
    | none => failure

/-! ## Pieces of texts -/

/-- How a text that may hold variables is enclosed. -/
inductive Enclosure where
  | quotes
  | backticks
  | heredoc
  deriving DecidableEq

/-- Whether a byte ends plain text in any case. -/
def Enclosure.endsAt : Enclosure → UInt8 → Bool
  | .quotes, b => b == ascii '"'
  | .backticks, b => b == 96
  | .heredoc, b => b == 10 || b == 13

/-- Whether a byte may stand in a label, or in a name inside a text. -/
def isLabelByte (b : UInt8) : Bool := isLetter b || isDigit b || 0x80 ≤ b

/-- The length of an escape sequence without its backslash; zero if there is none. -/
def escapeLength (bytes : Bytes) : Nat :=
  match bytes with
  | [] => 0
  | a :: rest =>
    if "nrtvef\\$\"".toList.any fun c => ascii c == a then 1
    else if isOctalDigit a then ((bytes.take 3).takeWhile isOctalDigit).length
    else if a == ascii 'x' then
      match ((rest.take 2).takeWhile isHexDigit).length with
      | 0 => 0
      | n + 1 => n + 2
    else if a == ascii 'u' then
      let hex := ((rest.drop 1).takeWhile isHexDigit).length
      if hex != 0 && beginsWith "\x7b" rest && beginsWith "\x7d" (rest.drop (hex + 1)) then hex + 3
      else 1
    else 0

/-- Whether a variable begins behind a dollar sign. -/
def beginsVariable (bytes : Bytes) : Bool :=
  match bytes with
  | a :: _ => (isLabelByte a && !isDigit a) || a == ascii '\x7b'
  | [] => false

/-- Whether a member follows the name of a variable. -/
def atMember (bytes : Bytes) : Bool :=
  beginsWith "->" bytes && ((bytes.drop 2).head?.any isLabelByte)

/-- The length of plain text; none if the source ends in it. `named` says that the name of a
variable stands in front of it. A backslash takes an opening brace along, and in a heredoc another
backslash. -/
def textLength? (e : Enclosure) : Bool → Bytes → Option Nat
  | _, [] => none
  | named, a :: rest =>
    if e.endsAt a then some 0
    else if a == ascii '\\' then
      match rest with
      | [] => none
      | b :: rest' =>
        if b == ascii '\x7b' || (e == .heredoc && b == ascii '\\') then
          (textLength? e false rest').map (· + 2)
        else if escapeLength (b :: rest') != 0 || (e == .backticks && b == 96) then some 0
        else (textLength? e false (b :: rest')).map (· + 1)
    else if a == ascii '$' && beginsVariable rest then some 0
    else if a == ascii '\x7b' && rest.head? == some (ascii '$') then some 0
    else if named && (a == ascii '[' || atMember (a :: rest)) then some 0
    else (textLength? e false rest).map (· + 1)

/-- An integer without a sign. -/
def plainInteger : Reader Unit := do
  gap
  let n := integerLength (← remaining)
  require (n != 0)
  advance n

/-- What stands between the brackets of an element inside a text: a number, a name or a variable. -/
def simpleIndex : Reader Unit := do
  let bytes ← ahead
  if beginsWith "-" bytes then symbol "-" *> plainInteger
  else if beginsWith "$" bytes then
    let _ ← dollarName
  else if integerLength bytes != 0 then plainInteger
  else
    let _ ← identifier

/-- What stands in a text where plain text ends: its nodes, and whether it is the name of a
variable. -/
def embedded (g : Grammar) : Reader (List Node × Bool) := do
  let bytes ← remaining
  if beginsWith "\\" bytes then
    advance (max 2 (escapeLength (bytes.drop 1) + 1))
    return ([], false)
  else if beginsWith "$" bytes then
    let v ← simpleVariable g
    return ([v], v.kind == .dollarName)
  else if beginsWith "[" bytes then
    between "[" "]" simpleIndex
    return ([], false)
  else if beginsWith "->" bytes then
    symbol "->"
    let _ ← identifier
    return ([], false)
  else
    let e ← between "\x7b" "\x7d" (g.expression Strength.any)
    return ([e], false)

/-- The inside of a text up to the byte that ends it, which is read too. -/
def inside (g : Grammar) (e : Enclosure) : Nat → Bool → Reader (List Node)
  | 0, _ => failure
  | fuel + 1, named => do
    let bytes ← remaining
    if bytes.head?.any e.endsAt then
      advance 1
      return []
    else
      match textLength? e named bytes with
      | none => failure
      | some 0 =>
        let (nodes, isName) ← embedded g
        return nodes ++ (← inside g e fuel isName)
      | some n =>
        advance n
        inside g e fuel false

/-- A string between double quotes. -/
def encapsedString (g : Grammar) : Reader Node :=
  nodeOf .encapsedString do
    let bytes ← remaining
    let mark := byteMark bytes
    require (beginsWith "\"" (bytes.drop mark))
    advance (mark + 1)
    inside g .quotes (← turns) false

/-- A command between backticks. -/
def shellCommand (g : Grammar) : Reader Node :=
  nodeOf .expression do
    let bytes ← remaining
    require (bytes.head? == some 96)
    advance 1
    inside g .backticks (← turns) false

end FacadeStubs.Php
