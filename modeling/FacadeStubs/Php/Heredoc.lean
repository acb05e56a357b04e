import FacadeStubs.Php.Strings

/-!
# Heredocs

A heredoc is a text between a label and a line that begins with the same label. If the label is in
single quotes the text is taken as it stands, else it may hold variables and expressions.

A line that begins with the label ends the text if nothing, or a sign that may follow an operand,
stands behind the label. If other code follows, the text may end there or go on. It goes on if a
label ends it later; `Grammar.longHeredocs` says whether this is to be tried.
-/
namespace FacadeStubs.Php

open Lexical Reader

/-- The length of a line break. -/
def lineBreak (bytes : Bytes) : Nat :=
  if beginsWith "\r\n" bytes then 2 else if bytes.head?.any Enclosure.heredoc.endsAt then 1 else 0

/-- What follows white space inside a line. -/
def behindIndent (bytes : Bytes) : Bytes :=
  bytes.dropWhile fun b => isSpace b && !Enclosure.heredoc.endsAt b

/-- A sign that may follow an operand at the end of a list or statement. -/
def isClosingSign (b : UInt8) : Bool :=
  b == ascii ';' || b == ascii ',' || b == ascii ')'

/-- Whether the label stands at the front with nothing but a closing sign or a line break behind
it. -/
def atProperEnd (label bytes : Bytes) : Bool :=
  let after := bytes.drop label.length
  label.isPrefixOf bytes && after.head?.any (fun b => isSpace b || isClosingSign b) &&
    (behindIndent after).head?.any fun b => isClosingSign b || Enclosure.heredoc.endsAt b

/-- The length of white space and the label behind it, where the label is a whole word. -/
def labelLine? (label bytes : Bytes) : Option Nat :=
  let indent := (bytes.takeWhile isSpace).length
  if (bytes.drop indent).takeWhile isLabelByte == label then some (indent + label.length) else none

/-! ## The opening -/

/-- The label of a heredoc, behind white space and comments. -/
def heredocLabel : Nat → Reader Bytes
  | 0 => failure
  | fuel + 1 => do
    let bytes ← remaining
    let here := (behindSpace? false bytes).getD []
    let label := here.takeWhile isLabelByte
    if label.isEmpty then
      let n := blanks bytes
      let comment := commentLength false (bytes.drop n)
      require (comment != 0)
      advance (n + comment)
      heredocLabel fuel
    else
      advance (bytes.length - here.length + label.length)
      return label

/-- The label that opens a heredoc, and whether the text is taken as it stands. A double quote may
stand on either side of the label. -/
def heredocOpening : Reader (Bytes × Bool) := do
  let fuel ← turns
  match ← maybe (heredocLabel fuel) with
  | some label =>
    quote '"' <|> pure ()
    return (label, false)
  | none =>
    gap
    if ← nextIs "'" then
      symbol "'"
      let label ← heredocLabel fuel
      quote '\''
      return (label, true)
    else
      symbol "\""
      let label ← heredocLabel fuel
      quote '"' <|> pure ()
      return (label, false)
where
  quote (c : Char) : Reader Unit := do
    require ((← remaining).head? == some (ascii c))
    advance 1

/-- The rest of the opening line, or all of a heredoc without a text: whether the label has come
again. -/
def endsAtOnce (label : Bytes) : Nat → Reader Bool
  | 0 => failure
  | fuel + 1 => do
    let bytes ← remaining
    match labelLine? label bytes with
    | some n =>
      advance n
      return true
    | none =>
      let n := runLength (fun b => if lineBreak b != 0 then 0 else blankLength b) 0 bytes
      let here := bytes.drop n
      match lineBreak here with
      | 0 =>
        let piece := gapLength false here
        require (piece != 0)
        advance (n + piece)
        endsAtOnce label fuel
      | m =>
        advance (n + m)
        return false

/-! ## The text -/

/-- The lines of a text that is taken as it stands, with the label that ends them. -/
def verbatimLines (label : Bytes) : Nat → Reader Unit
  | 0 => failure
  | fuel + 1 => do
    let bytes ← remaining
    let indent := (bytes.takeWhile isSpace).length
    let line := bytes.drop indent
    if atProperEnd label line then advance (indent + label.length)
    else
      let n := (line.takeWhile fun b => !Enclosure.heredoc.endsAt b).length
      require (n < line.length)
      advance (indent + n)
      verbatimLines label fuel

/-- The lines of a text that may hold variables, with the label that ends them. -/
def heredocLines (g : Grammar) (label : Bytes) : Nat → Bool → Reader (List Node)
  | 0, _ => failure
  | fuel + 1, named => do
    let bytes ← remaining
    match lineBreak bytes with
    | 0 =>
      require !(atProperEnd label (behindIndent bytes))
      match textLength? .heredoc named bytes with
      | none => failure
      | some 0 =>
        let (nodes, isName) ← embedded g
        return nodes ++ (← heredocLines g label fuel isName)
      | some n =>
        advance n
        heredocLines g label fuel false
    | n =>
      let next := bytes.drop n
      let goOn := do
        advance n
        heredocLines g label fuel false
      match labelLine? label next with
      | none => goOn
      | some m =>
        let finish := do
          advance (n + m)
          return []
        if atProperEnd label (behindIndent next) then finish
        else if g.longHeredocs then goOn <|> finish
        else finish

/-- A heredoc: three opening angles, a label, the text, and the label again. There is none inside
another. -/
def heredoc (g : Grammar) : Reader Node :=
  nodeOf .expression do
    symbol "<<<"
    require !(← get).inHeredoc
    let (label, verbatim) ← heredocOpening
    let fuel ← turns
    if ← endsAtOnce label fuel then return []
    else if verbatim then
      verbatimLines label fuel
      return []
    else
      modify fun c => { c with inHeredoc := true }
      let nodes ← heredocLines g label fuel false
      modify fun c => { c with inHeredoc := false }
      return nodes

end FacadeStubs.Php
