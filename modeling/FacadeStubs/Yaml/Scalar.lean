import FacadeStubs.Decimal.Integer
import FacadeStubs.Yaml.Text

/-!
# Scalars of YAML

Readers for the three kinds of scalars: quoted ones with their escapes, plain ones, and blocks of
lines. A reader gives the text of a scalar and what follows it, or nothing if the scalar is
malformed.
-/
namespace FacadeStubs.Yaml

/-! ## Quoted scalars -/

/-- The character that a backslash and one character stand for. -/
def escape? : Char → Option Char
  | '0' => some '\x00'
  | 'a' => some '\x07'
  | 'b' => some '\x08'
  | 't' | '\t' => some '\t'
  | 'n' => some '\n'
  | 'v' => some '\x0b'
  | 'f' => some '\x0c'
  | 'r' => some '\r'
  | 'e' => some '\x1b'
  | ' ' => some ' '
  | '"' => some '"'
  | '/' => some '/'
  | '\\' => some '\\'
  | 'N' => some '\x85'
  | '_' => some '\xa0'
  | 'L' => some '\u2028'
  | 'P' => some '\u2029'
  | _ => none

/-- How many digits of base 16 follow the letter of an escape. -/
def escapeDigits? : Char → Option Nat
  | 'x' => some 2
  | 'u' => some 4
  | 'U' => some 8
  | _ => none

/-- The character of an escape behind its backslash, and what follows it. -/
def readEscape? : List Char → Option (Char × List Char)
  | [] => none
  | c :: rest =>
    match escapeDigits? c with
    | some n =>
      let digits := rest.take n
      if digits.length == n then
        (Decimal.readDigits? 16 digits).bind fun v =>
          if v.isValidChar then some (Char.ofNat v, rest.drop n) else none
      else none
    | none => (escape? c).map fun e => (e, rest)

/-- Reads a quoted scalar from behind its opening quote. `column` is that of the text at hand. -/
def readQuoted? (quote : Char) : Nat → Nat → Folding → List Char → Option (String × List Char)
  | 0, _, _, _ => none
  | _ + 1, _, _, [] => none
  | fuel + 1, column, f, c :: rest =>
    if column == 0 && atDocumentMark (c :: rest) then none
    else
      match lineBreak? (c :: rest) with
      | some (b, rest') => readQuoted? quote fuel 0 (f.lineBreak b) rest'
      | none =>
        if isSpacing c then readQuoted? quote fuel (column + 1) (f.space c) rest
        else if c == quote then
          if quote == '\'' && rest.head? == some '\'' then
            readQuoted? quote fuel (column + 2) (f.push ['\'']) (rest.drop 1)
          else some (f.settle.result, rest)
        else if quote == '"' && c == '\\' then
          match lineBreak? rest with
          | some (_, rest') => readQuoted? quote fuel 0 f.settle.escapedBreak rest'
          | none =>
            match readEscape? rest with
            | some (e, rest') => readQuoted? quote fuel (column + 2) (f.push [e]) rest'
            | none => none
        else readQuoted? quote fuel (column + 1) (f.push [c]) rest

/-! ## Plain scalars -/

/-- The signs that end a plain scalar inside flow collections. -/
def isFlowSign (c : Char) : Bool := c == ',' || c == '[' || c == ']' || c == '\x7b' || c == '\x7d'

/-- What a plain scalar leaves: its text, whether a line ended behind it, and what follows. -/
structure PlainScalar where
  text : String
  isBroken : Bool
  rest : List Char

/-- Reads a plain scalar. `least` is the least column of its further lines outside flow
collections. -/
def readPlain? (inFlow : Bool) (least : Int) : Nat → Nat → Folding → List Char → Option PlainScalar
  | 0, _, _, _ => none
  | _ + 1, _, f, [] => some ⟨f.result, f.isBroken, []⟩
  | fuel + 1, column, f, c :: rest =>
    let done := some ⟨f.result, f.isBroken, c :: rest⟩
    match lineBreak? (c :: rest) with
    | some (b, rest') => readPlain? inFlow least fuel 0 (f.lineBreak b) rest'
    | none =>
      if isSpacing c then
        if f.isBroken && (column : Int) < least && c == '\t' then none
        else readPlain? inFlow least fuel (column + 1) (f.space c) rest
      else
        let atWordStart := f.isBroken || !f.spacing.isEmpty || f.text.isEmpty
        if f.isBroken && !inFlow && (column : Int) < least then done
        else if column == 0 && atDocumentMark (c :: rest) then done
        else if atWordStart && c == '#' then done
        else if inFlow && c == ':' && rest.head?.any (fun d => isFlowSign d || d == '?') then none
        else if (c == ':' && endsWord rest) || (inFlow && isFlowSign c) then done
        else readPlain? inFlow least fuel (column + 1) (f.push [c]) rest

/-! ## Block scalars -/

/-- What is done with the line breaks at the end of a block. -/
inductive Chomping where
  | strip
  | clip
  | keep
  deriving Repr, DecidableEq

/-- The marks behind the sign of a block: chomping, and the extra indentation if it is given. -/
structure BlockHeader where
  chomping : Chomping := .clip
  increment : Option Nat := none

/-- A chomping mark. -/
def chomping? : Char → Option Chomping
  | '+' => some .keep
  | '-' => some .strip
  | _ => none

/-- The value of an indentation mark. -/
def increment? (c : Char) : Option Nat := if c.isDigit then some (c.toNat - 48) else none

/-- Reads the marks of a block, in either order. -/
def readMarks (text : List Char) : BlockHeader × List Char :=
  match text with
  | a :: rest =>
    match chomping? a, increment? a with
    | some k, _ =>
      match rest with
      | b :: rest' =>
        match increment? b with
        | some n => (⟨k, some n⟩, rest')
        | none => (⟨k, none⟩, rest)
      | [] => (⟨k, none⟩, [])
    | none, some n =>
      match rest with
      | b :: rest' =>
        match chomping? b with
        | some k => (⟨k, some n⟩, rest')
        | none => (⟨.clip, some n⟩, rest)
      | [] => (⟨.clip, some n⟩, [])
    | none, none => ({}, text)
  | [] => ({}, [])

/-- The rest of a line that holds nothing but spacing and a comment. -/
def restOfLine? (text : List Char) : Option (List Char) :=
  let here := text.dropWhile isSpacing
  let behind := match here with
    | '#' :: _ => here.dropWhile fun c => !isBreak c
    | _ => here
  match lineBreak? behind with
  | some (_, rest) => some rest
  | none => if behind.isEmpty then some [] else none

/-- Empty lines in a block. -/
structure EmptyLines where
  /-- Their breaks, in reverse. -/
  breaks : List Char
  /-- The column of the text behind them. -/
  column : Nat
  /-- The largest column that any of them reached. -/
  widest : Nat
  rest : List Char

/-- Reads blanks of indentation and empty lines. `indent` is the indentation of the block if it is
known. A tab among the indentation is malformed. -/
def readEmptyLines? (indent : Option Nat) :
    Nat → Nat → Nat → List Char → List Char → Option EmptyLines
  | 0, _, _, _, _ => none
  | fuel + 1, column, widest, breaks, text =>
    let open? := indent.all fun n => column < n
    match text with
    | [] => some ⟨breaks, column, max widest column, []⟩
    | c :: rest =>
      if open? && c == ' ' then readEmptyLines? indent fuel (column + 1) widest breaks rest
      else if open? && c == '\t' then none
      else
        match lineBreak? (c :: rest) with
        | some (b, rest') => readEmptyLines? indent fuel 0 (max widest column) (b :: breaks) rest'
        | none => some ⟨breaks, column, max widest column, c :: rest⟩

/-- A block while its lines are read. Texts are in reverse. -/
structure BlockText where
  text : List Char := []
  /-- The break behind the last line. -/
  lastBreak : List Char := []
  /-- The breaks of the empty lines behind it. -/
  emptyBreaks : List Char := []
  /-- The last line began with spacing. -/
  wasIndented : Bool := false

/-- Adds a line. In a folded block the break in front of it becomes a blank, unless one of the two
lines begins with spacing. -/
def BlockText.push (b : BlockText) (folded : Bool) (line lastBreak emptyBreaks : List Char) :
    BlockText :=
  let indented := (line.head?.map isSpacing).getD false
  let joint :=
    if folded && b.lastBreak == ['\n'] && !b.wasIndented && !indented then
      if b.emptyBreaks.isEmpty then [' '] else b.emptyBreaks
    else b.emptyBreaks ++ b.lastBreak
  ⟨line.reverse ++ joint ++ b.text, lastBreak, emptyBreaks, indented⟩

/-- The text of a block with its end chomped. -/
def BlockText.finish (b : BlockText) (k : Chomping) : String :=
  let tail := match k with
    | .strip => []
    | .clip => b.lastBreak
    | .keep => b.emptyBreaks ++ b.lastBreak
  String.ofList (tail ++ b.text).reverse

/-- Reads the lines of a block as long as they stand at its indentation. -/
def readLines? (folded : Bool) (indent : Nat) :
    Nat → Nat → BlockText → List Char → Option (BlockText × List Char)
  | 0, _, _, _ => none
  | fuel + 1, column, b, text =>
    if column == indent && !text.isEmpty then
      let line := text.takeWhile fun c => !isBreak c
      let behind := text.dropWhile fun c => !isBreak c
      let (lastBreak, next) := match lineBreak? behind with
        | some (c, rest) => ([c], rest)
        | none => ([], behind)
      let start := if lastBreak.isEmpty then column + line.length else 0
      match readEmptyLines? (some indent) (next.length + 1) start 0 [] next with
      | none => none
      | some e =>
        readLines? folded indent fuel e.column (b.push folded line lastBreak e.breaks) e.rest
    else some (b, text)

/-- Reads a block from behind its sign. `parent` is the indentation around it. -/
def readBlock? (folded : Bool) (parent : Int) (text : List Char) : Option (String × List Char) := do
  let (header, behind) := readMarks text
  if header.increment == some 0 then none
  let lines ← restOfLine? behind
  let given := header.increment.map fun n => ((max parent 0) + n).toNat
  let first ← readEmptyLines? given (lines.length + 1) 0 0 [] lines
  let indent := given.getD (max (max first.widest (parent + 1).toNat) 1)
  let (b, rest) ← readLines? folded indent (first.rest.length + 1) first.column
    { emptyBreaks := first.breaks } first.rest
  return (b.finish header.chomping, rest)

end FacadeStubs.Yaml
