import FacadeStubs.Php.Lexical
import FacadeStubs.Php.Operand

/-!
# Readers

A reader takes a value off the front of the source or fails. Every token reader passes over the gap
in front of its token, never behind it, so a node ends where its last token ends. Looking ahead does
not move the cursor, and a reader that fails leaves no trace.

A cursor knows whether the expression being read may be the last thing of its statement. If so, a
closing tag behind a complete operand ends the statement; `behindOperand` is the look ahead that
heeds this.

The grammar is recursive. `Grammar` holds the entry points through which it recurs; the rules are
plain functions of a `Grammar`. Each level of nesting takes a byte of the source, so a source cannot
nest deeper than it is long.
-/
namespace FacadeStubs.Php

open Lexical

/-- A place in the source. -/
structure Cursor where
  /-- The bytes still to be read. -/
  rest : Bytes
  /-- How many bytes were read before them. -/
  offset : Nat
  /-- How many bytes the source has in all. -/
  size : Nat
  /-- Whether a closing tag behind a complete operand ends the statement. -/
  tagEnds : Bool := false
  /-- Whether the place is inside a heredoc. -/
  inHeredoc : Bool := false
  deriving Repr

/-- A reader of a value. -/
abbrev Reader (α : Type) := StateT Cursor Option α

/-! ## The grammar -/

namespace Strength

/-- Any expression. -/
def any : Nat := 0

/-- The value of an assignment: all but the operators spelled as words. -/
def assigned : Nat := 4

/-- A condition with a question mark. -/
def conditional : Nat := 5

end Strength

/-- The entry points of the grammar. -/
structure Grammar where
  /-- An expression whose operators bind at least as tightly as given. -/
  expression : Nat → Reader Node
  /-- An operand with the members, elements and arguments behind it. -/
  operand : Reader Operand
  statement : Reader Node
  /-- Whether a heredoc goes on behind a label that other code follows, if it can. -/
  longHeredocs : Bool

/-! ## Steps -/

namespace Reader

/-- Moves `n` bytes forward. -/
def advance (n : Nat) : Reader Unit :=
  modify fun c => { c with rest := c.rest.drop n, offset := c.offset + n }

/-- The bytes still to be read. -/
def remaining : Reader Bytes := do return (← get).rest

/-- The position in the source. -/
def position : Reader Nat := do return (← get).offset

/-- More turns than a loop takes that reads at least a byte in each but the last. -/
def turns : Reader Nat := do return (← get).size + 1

/-- A reader of something behind which a closing tag ends the statement, or does not. -/
def withTagEnds {α : Type} (tagEnds : Bool) (r : Reader α) : Reader α := do
  let before := (← get).tagEnds
  modify fun c => { c with tagEnds }
  let value ← r
  modify fun c => { c with tagEnds := before }
  return value

/-- A reader of something that may be the last thing of its statement. -/
def last {α : Type} (r : Reader α) : Reader α := withTagEnds true r

/-- A reader of something that more of its statement follows. -/
def inner {α : Type} (r : Reader α) : Reader α := withTagEnds false r

/-- Passes over what may stand in front of a token. -/
def gap : Reader Unit := do advance (gaps (← remaining))

/-- Passes over what may stand in front of a token where attributes may come. -/
def openGap : Reader Unit := do advance (gapsBeforeAttributes (← remaining))

/-- Passes over what may stand in front of a token, and gives the stretches outside the tags. -/
def interpolations (attributes : Bool) : Reader (List Node) := do go (← turns)
where
  go : Nat → Reader (List Node)
    | 0 => return []
    | fuel + 1 => do
      advance (trivia attributes (← remaining))
      match interpolationLength (← remaining) with
      | 0 => return []
      | n => do
        let start ← position
        advance n
        return .mk .interpolation start (start + n) [] :: (← go fuel)

/-- The bytes from the next token on. -/
def ahead : Reader Bytes := do
  let bytes ← remaining
  return bytes.drop (gaps bytes)

/-- The bytes from the next token on where attributes may come. -/
def openAhead : Reader Bytes := do
  let bytes ← remaining
  return bytes.drop (gapsBeforeAttributes bytes)

/-- The bytes from the next token on, behind what may be the end of the statement; none if a closing
tag ends it. -/
def behindOperand : Reader Bytes := do
  let bytes ← remaining
  if (← get).tagEnds then
    let (n, ended) := gapsBeforeEnd 0 true bytes
    return if ended then [] else bytes.drop n
  else return bytes.drop (gaps bytes)

/-- Fails unless a condition holds. -/
def require (b : Bool) : Reader Unit := if b then pure () else failure

/-- A reader that may find nothing. -/
def maybe {α : Type} (r : Reader α) : Reader (Option α) := some <$> r <|> pure none

/-- The nodes of a reader that may find nothing. -/
def maybeNode (r : Reader Node) : Reader (List Node) := (fun n => [n]) <$> r <|> pure []

/-- As many values as `fuel` allows and the reader finds. -/
def manyWithin {α : Type} (r : Reader α) : Nat → Reader (List α)
  | 0 => pure []
  | fuel + 1 => (do return (← r) :: (← manyWithin r fuel)) <|> pure []

/-- All values that a reader finds one behind the other. A value takes at least a byte. -/
def many {α : Type} (r : Reader α) : Reader (List α) := do
  manyWithin r (← turns)

/-- Punctuation. -/
def symbol (text : String) : Reader Unit := do
  gap
  require (beginsWith text (← remaining))
  advance text.length

/-- Whether punctuation comes next. -/
def nextIs (text : String) : Reader Bool := do return beginsWith text (← ahead)

/-- Whether punctuation comes next behind what may be the end of the statement. -/
def thenIs (text : String) : Reader Bool := do return beginsWith text (← behindOperand)

/-- The name that comes next, folded; empty if none does. -/
def nextWord : Reader String := do return wordAt (← ahead)

/-- A keyword, in any letter case. -/
def keyword (word : String) : Reader Unit := do
  gap
  let bytes ← remaining
  require (wordAt bytes == word)
  advance (nameLength bytes)

/-- A node of the children that a reader gives, from the next token on. -/
def nodeOf (kind : Kind) (children : Reader (List Node)) : Reader Node := do
  gap
  let start ← position
  let cs ← children
  return .mk kind start (← position) cs

/-- A node of children already read, up to here. -/
def nodeFrom (kind : Kind) (start : Nat) (children : List Node) : Reader Node := do
  return .mk kind start (← position) children

/-- A node without children. -/
def leaf (kind : Kind) (token : Reader Unit) : Reader Node :=
  nodeOf kind do
    token
    return []

/-- Something between two signs. -/
def between {α : Type} (opening closing : String) (r : Reader α) : Reader α := do
  symbol opening
  let value ← inner r
  symbol closing
  return value

/-- A comma, unless the statement ends in front of it. -/
def comma : Reader Unit := do
  require (← thenIs ",")
  symbol ","

/-- At least one value, with commas between them and none behind the last. -/
def commaList1 {α : Type} (r : Reader α) : Reader (List α) := do
  return (← r) :: (← many (comma *> r))

/-- At least one value, with commas between them; a comma may stand behind the last. -/
def openList1 {α : Type} (r : Reader α) : Reader (List α) := do
  let values ← commaList1 r
  let _ ← maybe comma
  return values

/-- Values with commas between them. A comma may stand behind the last, and where there is none. -/
def openList {α : Type} (r : Reader α) : Reader (List α) := do
  let values ← commaList1 r <|> pure []
  let _ ← maybe comma
  return values

/-- The end of a statement: a semicolon, or a closing tag in sight. -/
def semicolon : Reader Unit := do
  let bytes ← remaining
  let (n, ended) := gapsBeforeEnd 0 true bytes
  if ended then advance n
  else
    require (beginsWith ";" (bytes.drop n))
    advance (n + 1)

/-! ## Names -/

/-- A single name, keywords included. -/
def identifier : Reader Node :=
  leaf .name do
    let n := nameLength (← remaining)
    require (n != 0)
    advance n

/-- A backslash and a name behind it. -/
def segment : Reader Unit := do
  require (← thenIs "\\")
  symbol "\\"
  let _ ← identifier

/-- A single name, or names with backslashes between them and perhaps in front. -/
def path : Reader Node := do
  gap
  let start ← position
  if ← nextIs "\\" then
    symbol "\\"
    let _ ← identifier
    let _ ← many segment
    nodeFrom .qualifiedName start []
  else
    let single ← identifier
    match ← many segment with
    | [] => return single
    | _ => nodeFrom .qualifiedName start []

/-- A class, function or constant name: single, or qualified by backslashes. The word `namespace`
is no name of its own. -/
def anyName : Reader Node := do
  let isKeyword := (← nextWord) == "namespace"
  let name ← path
  require !(isKeyword && name.kind == .name)
  return name

/-- A variable: a dollar sign and a name. -/
def dollarName : Reader Node :=
  leaf .dollarName do
    symbol "$"
    let _ ← identifier

/-- The names of a list. -/
def nameList : Reader (List Node) := commaList1 anyName

/-- Whether a word comes next behind what may be the end of the statement. -/
def thenWord (word : String) : Reader Bool := do return wordAt (← behindOperand) == word

end Reader

/-- Something that can be assigned to. -/
def Grammar.place (g : Grammar) : Reader Node := do
  let o ← g.operand
  Reader.require (o.extent == .place)
  return o.node

end FacadeStubs.Php
