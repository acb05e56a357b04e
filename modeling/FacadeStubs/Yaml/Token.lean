import FacadeStubs.Yaml.Scalar

/-!
# Tokens of YAML

The scanner turns a text into tokens. Block structure comes from columns: a deeper column opens a
collection, a lesser one closes it. A key is known to be one only at the colon behind it; the place
of a possible key is remembered, and the token that marks it is put in front of it then.
-/
namespace FacadeStubs.Yaml

/-- How a scalar is written. -/
inductive Style where
  | plain
  | quoted
  | literal
  | folded
  deriving Repr, DecidableEq

/-- A token. -/
inductive Token where
  | streamEnd
  | version (major minor : Nat)
  | tagDirective (handle expansion : String)
  | documentStart
  | documentEnd
  | blockSequence
  | blockMapping
  | blockEnd
  | flowSequence
  | flowSequenceEnd
  | flowMapping
  | flowMappingEnd
  | blockEntry
  | flowEntry
  | key
  | value
  | aliasOf (name : String)
  | anchor (name : String)
  | tag (handle suffix : String)
  | scalar (text : String) (style : Style)
  deriving Repr, DecidableEq

/-- A place where a key may have begun. -/
structure PossibleKey where
  /-- What stands there has to be a key. -/
  required : Bool
  /-- The number of tokens in front of it. -/
  tokensBefore : Nat
  index : Nat
  line : Nat
  column : Nat

/-- The state of the scanner. -/
structure Scanner where
  rest : List Char
  index : Nat := 0
  line : Nat := 0
  column : Nat := 0
  /-- The tokens so far, in reverse. -/
  tokens : List Token := []
  /-- The column of the innermost open block collection; -1 outside all. -/
  indent : Int := -1
  /-- Those around it. -/
  outerIndents : List Int := []
  /-- The possible key of each open flow collection, innermost first, and of the block around
  them. -/
  keys : List (Option PossibleKey) := [none]
  /-- A key may begin here. -/
  keyAllowed : Bool := true

namespace Scanner

/-- Whether the text at hand stands in a flow collection. -/
def inFlow (s : Scanner) : Bool := s.keys.length > 1

/-- Moves over characters one by one. -/
def advance : Nat → Scanner → Scanner
  | 0, s => s
  | n + 1, s =>
    match s.rest with
    | [] => s
    | c :: rest =>
      let moved := { s with rest, index := s.index + 1 }
      if isBreak c && !(c == '\r' && rest.head? == some '\n') then
        advance n { moved with line := s.line + 1, column := 0 }
      else advance n { moved with column := s.column + 1 }

/-- Moves to a later part of the text. -/
def moveTo (s : Scanner) (rest : List Char) : Scanner := s.advance (s.rest.length - rest.length)

/-- Adds a token. -/
def emit (s : Scanner) (t : Token) : Scanner := { s with tokens := t :: s.tokens }

/-- Puts a token behind the first `n` tokens. -/
def insertAt (s : Scanner) (n : Nat) (t : Token) : Scanner :=
  let later := s.tokens.length - n
  { s with tokens := s.tokens.take later ++ t :: s.tokens.drop later }

/-- Closes the block collections at columns beyond one. -/
def closeBlocks (s : Scanner) (column : Int) : Scanner :=
  if s.inFlow then s else go s.outerIndents s
where
  go : List Int → Scanner → Scanner
    | [], s => s
    | outer :: more, s =>
      if column < s.indent then
        go more { s.emit .blockEnd with indent := outer, outerIndents := more }
      else s

/-- Opens a block collection at a column behind the first `n` tokens, unless one is open there. -/
def openBlock (s : Scanner) (column n : Nat) (t : Token) : Scanner :=
  if !s.inFlow && s.indent < column then
    { s.insertAt n t with indent := column, outerIndents := s.indent :: s.outerIndents }
  else s

/-- Gives up the possible key at hand; there is no answer if it has to be one. -/
def dropKey (s : Scanner) : Option Scanner :=
  match s.keys with
  | some k :: outer => if k.required then none else some { s with keys := none :: outer }
  | _ => some s

/-- Notes that a key may begin here. -/
def noteKey (s : Scanner) : Option Scanner :=
  if s.keyAllowed then do
    let s' ← s.dropKey
    let k : PossibleKey :=
      { required := !s.inFlow && s.indent == s.column
        tokensBefore := s.tokens.length
        index := s.index, line := s.line, column := s.column }
    return { s' with keys := some k :: s'.keys.drop 1 }
  else some s

/-- Whether a key that began at a place can no longer end: it has to fit on a line and in 1024
characters. -/
def isStale (s : Scanner) (k : PossibleKey) : Bool := k.line < s.line || k.index + 1024 < s.index

/-- Gives up the possible keys that are stale; there is no answer if one has to be a key. -/
def dropStale (s : Scanner) : Option Scanner :=
  if s.keys.any fun k => k.any fun k => k.required && s.isStale k then none
  else some { s with keys := s.keys.map fun k => k.filter fun k => !s.isStale k }

/-- Moves over blanks, comments and line breaks. A tab is no blank where a key may begin. A line
break outside flow collections allows a key. -/
def skipGaps : Nat → Scanner → Scanner
  | 0, s => s
  | fuel + 1, s =>
    let tabs := s.inFlow || !s.keyAllowed
    let blanks := (s.rest.takeWhile fun c => c == ' ' || (tabs && c == '\t')).length
    let s := s.advance blanks
    let s := if s.rest.head? == some '#' then
        s.advance (s.rest.takeWhile fun c => !isBreak c).length
      else s
    match lineBreak? s.rest with
    | some (_, rest) =>
      let s := s.moveTo rest
      skipGaps fuel (if s.inFlow then s else { s with keyAllowed := true })
    | none => s

/-! ## Directives and properties -/

/-- A number of at most nine digits. -/
def readNumber? (text : List Char) : Option (Nat × List Char) :=
  let digits := text.takeWhile Char.isDigit
  if digits.length > 9 then none
  else (Decimal.readDigits? 10 digits).map fun n => (n, text.dropWhile Char.isDigit)

/-- A tag handle: an exclamation mark, or a name between two. -/
def readHandle? (text : List Char) : Option (List Char × List Char) :=
  match text with
  | '!' :: rest =>
    let name := rest.takeWhile isNameChar
    match rest.dropWhile isNameChar with
    | '!' :: behind => some ('!' :: name ++ ['!'], behind)
    | behind => some ('!' :: name, behind)
  | _ => none

/-- Characters of a tag. -/
def isTagChar (verbatim : Bool) (c : Char) : Bool :=
  isNameChar c || ";/?:@&=+$.!~*'()".toList.contains c || (verbatim && ",[]".toList.contains c)

/-- The value of two digits of base 16 behind a percent sign. -/
def octet? : List Char → Option (Nat × List Char)
  | '%' :: a :: b :: rest => (Decimal.readDigits? 16 [a, b]).map fun n => (n, rest)
  | _ => none

/-- The number of octets of a character by its first one. -/
def octetCount (first : Nat) : Nat :=
  if first < 0x80 then 1
  else if first / 32 == 6 then 2
  else if first / 16 == 14 then 3
  else if first / 8 == 30 then 4
  else 0

/-- Reads the characters of a tag; `pending` octets of a character written with percent signs are
still to come. Octets beyond ASCII are kept as they are. -/
def readTagChars? (verbatim : Bool) :
    Nat → Nat → List Char → List Char → Option (List Char × List Char)
  | 0, _, _, _ => none
  | fuel + 1, pending, read, text =>
    if pending > 0 then
      match octet? text with
      | some (n, rest) =>
        if n / 64 == 2 then readTagChars? verbatim fuel (pending - 1) (Char.ofNat n :: read) rest
        else none
      | none => none
    else
      match text with
      | '%' :: _ =>
        match octet? text with
        | some (n, rest) =>
          if octetCount n == 0 then none
          else readTagChars? verbatim fuel (octetCount n - 1) (Char.ofNat n :: read) rest
        | none => none
      | c :: rest =>
        if isTagChar verbatim c then readTagChars? verbatim fuel 0 (c :: read) rest
        else some (read.reverse, text)
      | [] => some (read.reverse, [])

/-- The characters of a tag. -/
def readTagText? (verbatim : Bool) (text : List Char) : Option (List Char × List Char) :=
  readTagChars? verbatim (text.length + 1) 0 [] text

/-- Reads a directive from behind its percent sign. -/
def readDirective? (text : List Char) : Option (Token × List Char) := do
  let name := text.takeWhile isNameChar
  let behind := text.dropWhile isNameChar
  if !endsWord behind then none
  let here := behind.dropWhile isSpacing
  if name == "YAML".toList then
    let (major, rest) ← readNumber? here
    match rest with
    | '.' :: rest' =>
      let (minor, last) ← readNumber? rest'
      return (.version major minor, ← restOfLine? last)
    | _ => none
  else if name == "TAG".toList then
    let (handle, rest) ← readHandle? here
    if handle.length > 1 && handle.getLast? != some '!' then none
    if !rest.head?.any isSpacing then none
    let (expansion, last) ← readTagText? true (rest.dropWhile isSpacing)
    if expansion.isEmpty || !endsWord last then none
    return (.tagDirective (String.ofList handle) (String.ofList expansion), ← restOfLine? last)
  else none

/-- The signs that may follow the name of an anchor. -/
def endsAnchor (text : List Char) : Bool :=
  endsWord text || text.head?.any fun c => "?:,]\x7d%@".toList.contains c || c.toNat == 96

/-- Reads the name of an anchor. -/
def readAnchor? (text : List Char) : Option (String × List Char) :=
  let name := text.takeWhile isNameChar
  let rest := text.dropWhile isNameChar
  if name.isEmpty || !endsAnchor rest then none else some (String.ofList name, rest)

/-- Reads a tag: verbatim between angles, with a handle, or local. -/
def readTag? (inFlow : Bool) (text : List Char) : Option (Token × List Char) := do
  let (handle, suffix, rest) ←
    match text with
    | '!' :: '<' :: inner => do
      let (tag, behind) ← readTagText? true inner
      match behind with
      | '>' :: rest => if tag.isEmpty then none else some ([], tag, rest)
      | _ => none
    | _ => do
      let (handle, behind) ← readHandle? text
      if handle.length > 1 && handle.getLast? == some '!' then
        let (suffix, rest) ← readTagText? false behind
        if suffix.isEmpty then none else some (handle, suffix, rest)
      else
        let (more, rest) ← readTagText? false behind
        let suffix := handle.drop 1 ++ more
        if suffix.isEmpty then some ([], ['!'], rest) else some (['!'], suffix, rest)
  if endsWord rest || (inFlow && rest.head? == some ',') then
    return (.tag (String.ofList handle) (String.ofList suffix), rest)
  else none

/-! ## Fetching tokens -/

/-- A token of one sign. -/
def sign (s : Scanner) (t : Token) : Scanner := (s.advance 1).emit t

/-- A flow collection begins. -/
def openFlow (s : Scanner) (t : Token) : Option Scanner := do
  let s ← s.noteKey
  return { s.sign t with keys := none :: s.keys, keyAllowed := true }

/-- A flow collection ends. -/
def closeFlow (s : Scanner) (t : Token) : Option Scanner := do
  let s ← s.dropKey
  return { s.sign t with keys := if s.inFlow then s.keys.drop 1 else s.keys, keyAllowed := false }

/-- An entry of a block sequence. -/
def blockEntry (s : Scanner) : Option Scanner := do
  if !s.inFlow && !s.keyAllowed then none
  let s ← (s.openBlock s.column s.tokens.length .blockSequence).dropKey
  return { s.sign .blockEntry with keyAllowed := true }

/-- A key with a question mark in front. -/
def complexKey (s : Scanner) : Option Scanner := do
  if !s.inFlow && !s.keyAllowed then none
  let s ← (s.openBlock s.column s.tokens.length .blockMapping).dropKey
  return { s.sign .key with keyAllowed := !s.inFlow }

/-- A colon in front of a value. If a key may have begun earlier on the line, it has. -/
def valueSign (s : Scanner) : Option Scanner :=
  match s.keys with
  | some k :: outer =>
    let s := (s.insertAt k.tokensBefore .key).openBlock k.column k.tokensBefore .blockMapping
    some { s.sign .value with keys := none :: outer, keyAllowed := false }
  | _ => do
    if !s.inFlow && !s.keyAllowed then none
    let s := s.openBlock s.column s.tokens.length .blockMapping
    return { s.sign .value with keyAllowed := !s.inFlow }

/-- A token at which a key may begin, with what follows it. -/
def keyPart (s : Scanner) (token? : Option (Token × List Char)) : Option Scanner := do
  let s ← s.noteKey
  let (t, rest) ← token?
  return { (s.moveTo rest).emit t with keyAllowed := false }

/-- A block of lines. -/
def blockScalar (s : Scanner) (folded : Bool) : Option Scanner := do
  let s ← s.dropKey
  let (text, rest) ← readBlock? folded s.indent (s.rest.drop 1)
  return { (s.moveTo rest).emit (.scalar text (if folded then .folded else .literal)) with
    keyAllowed := true }

/-- A quoted scalar. -/
def quotedScalar (s : Scanner) (quote : Char) : Option Scanner :=
  s.keyPart ((readQuoted? quote (s.rest.length + 1) (s.column + 1) {} (s.rest.drop 1)).map
    fun (text, rest) => (.scalar text .quoted, rest))

/-- A plain scalar. A line that ended behind it allows a key. -/
def plainScalar (s : Scanner) : Option Scanner := do
  let s ← s.noteKey
  let p ← readPlain? s.inFlow (s.indent + 1) (s.rest.length + 1) s.column {} s.rest
  return { (s.moveTo p.rest).emit (.scalar p.text .plain) with keyAllowed := p.isBroken }

/-- The end of all open blocks in front of a token that stands outside. -/
def outside (s : Scanner) : Option Scanner := do
  let s ← (s.closeBlocks (-1)).dropKey
  return { s with keyAllowed := false }

/-- The signs that begin no plain scalar. -/
def isIndicator (c : Char) : Bool :=
  "-?:,[]\x7b\x7d#&*!|>'\"%@".toList.contains c || c.toNat == 96

/-- Whether a plain scalar begins here. -/
def startsPlain (inFlow : Bool) (c : Char) (rest : List Char) : Bool :=
  (!isIndicator c && !isSpacing c) || (c == '-' && !rest.head?.any isSpacing) ||
    (!inFlow && (c == '?' || c == ':') && !endsWord rest)

/-- The next token, and those that it brings with it. -/
def next (s : Scanner) : Option Scanner := do
  let s ← (s.skipGaps (s.rest.length + 1)).dropStale
  let s := s.closeBlocks s.column
  match s.rest with
  | [] =>
    let s ← s.outside
    return s.emit .streamEnd
  | c :: rest =>
    let single := s.inFlow || endsWord rest
    if s.column == 0 && c == '%' then
      let s ← s.outside
      let (t, behind) ← readDirective? rest
      return (s.moveTo behind).emit t
    else if s.column == 0 && atMarks '-' s.rest then
      let s ← s.outside
      return (s.advance 3).emit .documentStart
    else if s.column == 0 && atMarks '.' s.rest then
      let s ← s.outside
      return (s.advance 3).emit .documentEnd
    else if c == '[' then s.openFlow .flowSequence
    else if c == '\x7b' then s.openFlow .flowMapping
    else if c == ']' then s.closeFlow .flowSequenceEnd
    else if c == '\x7d' then s.closeFlow .flowMappingEnd
    else if c == ',' then
      let s ← s.dropKey
      return { s.sign .flowEntry with keyAllowed := true }
    else if c == '-' && endsWord rest then s.blockEntry
    else if c == '?' && single then s.complexKey
    else if c == ':' && single then s.valueSign
    else if c == '*' then
      s.keyPart ((readAnchor? rest).map fun (name, behind) => (.aliasOf name, behind))
    else if c == '&' then
      s.keyPart ((readAnchor? rest).map fun (name, behind) => (.anchor name, behind))
    else if c == '!' then s.keyPart (readTag? s.inFlow s.rest)
    else if c == '|' && !s.inFlow then s.blockScalar false
    else if c == '>' && !s.inFlow then s.blockScalar true
    else if c == '\'' || c == '"' then s.quotedScalar c
    else if startsPlain s.inFlow c rest then s.plainScalar
    else none

/-- All tokens up to the end of the text. -/
def runWithin : Nat → Scanner → Option (List Token)
  | 0, _ => none
  | fuel + 1, s => do
    let s ← s.next
    if s.tokens.head? == some .streamEnd then return s.tokens.reverse else runWithin fuel s

end Scanner

/-- The tokens of a text, which a byte order mark may precede; none if it is malformed. -/
def tokens? (text : List Char) : Option (List Token) :=
  let content := match text with
    | '\uFEFF' :: rest => rest
    | _ => text
  if content.all isAllowed then ({ rest := content } : Scanner).runWithin (content.length + 1)
  else none

end FacadeStubs.Yaml
