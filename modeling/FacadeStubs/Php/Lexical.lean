import FacadeStubs.Text.Utf8

/-!
# Lexical rules

The lengths of names, numbers and gaps at the front of a byte string; zero means that there is none.
A gap is what may stand between two tokens: blanks, comments, and a stretch outside the code tags.

Two things about gaps depend on the place. Where attributes may come, `#[` begins some; elsewhere
its `#` is a comment of one byte. Where a statement may end, a closing tag ends it
(`closesStatement`); elsewhere the stretch outside the tags is part of the gap. A NUL byte belongs
to no token but the texts with variables in them.
-/
namespace FacadeStubs.Php.Lexical

/-- The byte of an ASCII character. -/
abbrev ascii (c : Char) : UInt8 := c.toNat.toUInt8

def isDigit (b : UInt8) : Bool := 48 ≤ b && b ≤ 57

def isLetter (b : UInt8) : Bool := (65 ≤ b && b ≤ 90) || (97 ≤ b && b ≤ 122) || b == 95

/-- A two-byte character of a name: any but the no-break space. -/
def isWidePair (a b : UInt8) : Bool :=
  0xC2 ≤ a && a ≤ 0xDF && Utf8.isTail b && !(a == 0xC2 && b == 0xA0)

/-- The three-byte characters that count as blanks: zero width space, word joiner, byte order
mark. -/
def isBlankTriple (a b c : UInt8) : Bool :=
  (a == 0xE2 && b == 0x80 && c == 0x8B) || (a == 0xE2 && b == 0x81 && c == 0xA0) ||
    (a == 0xEF && b == 0xBB && c == 0xBF)

/-- A three-byte character of a name. -/
def isWideTriple (a b c : UInt8) : Bool :=
  0xE0 ≤ a && a ≤ 0xEF && Utf8.admits a b && Utf8.isTail c && !isBlankTriple a b c

/-- The length of a run of name characters. -/
def nameTail : Bytes → Nat
  | [] => 0
  | a :: rest =>
    if isLetter a || isDigit a then nameTail rest + 1
    else
      match rest with
      | [] => 0
      | b :: rest' =>
        if isWidePair a b then nameTail rest' + 2
        else
          match rest' with
          | [] => 0
          | c :: rest'' => if isWideTriple a b c then nameTail rest'' + 3 else 0

/-- The length of a name: a run of name characters that no digit begins. -/
def nameLength : Bytes → Nat
  | [] => 0
  | a :: rest => if isDigit a then 0 else nameTail (a :: rest)

/-- The text of a name, to be compared with keywords: letters are lowered, and the long s and the
Kelvin sign are the letters that they are forms of. -/
def folded : Bytes → List Char
  | a :: b :: c :: rest =>
    if a == 0xE2 && b == 0x84 && c == 0xAA then 'k' :: folded rest
    else if a == 0xC5 && b == 0xBF then 's' :: folded (c :: rest)
    else lowered a :: folded (b :: c :: rest)
  | [a, b] => if a == 0xC5 && b == 0xBF then ['s'] else [lowered a, lowered b]
  | [a] => [lowered a]
  | [] => []
where
  lowered (b : UInt8) : Char := (Char.ofNat b.toNat).toLower

/-- The name at the front, folded, to be compared with keywords; empty if there is none. -/
def wordAt (bytes : Bytes) : String := String.ofList (folded (bytes.take (nameLength bytes)))

/-- The name at the front as it is written, to be compared with the keywords that have one spelling
only. -/
def exactWordAt (bytes : Bytes) : String :=
  String.ofList ((bytes.take (nameLength bytes)).map fun b => Char.ofNat b.toNat)

/-- Whether the bytes begin with an ASCII text. -/
def beginsWith (text : String) (bytes : Bytes) : Bool :=
  go text.toList bytes
where
  go : List Char → Bytes → Bool
    | [], _ => true
    | _ :: _, [] => false
    | c :: cs, b :: bs => ascii c == b && go cs bs

/-- Whether the name at the front stands for a class relative to the present one. Of these words
only `static` may have capitals; `SELF` and `PARENT` are plain names. -/
def isRelativeScope (bytes : Bytes) : Bool :=
  wordAt bytes == "static" || ["self", "parent"].contains (exactWordAt bytes)

/-! ## Gaps -/

/-- The length of one blank character. -/
def blankLength : Bytes → Nat
  | a :: rest =>
    if (9 ≤ a && a ≤ 13) || a == 32 then 1
    else
      match rest with
      | b :: rest' =>
        if a == 0xC2 && b == 0xA0 then 2
        else
          match rest' with
          | c :: _ => if isBlankTriple a b c then 3 else 0
          | [] => 0
      | [] => 0
  | [] => 0

/-- The rest of a comment that ends with its line, or in front of a closing tag. A question mark
takes the byte behind it along. -/
def lineComment : Bytes → Nat
  | [] => 0
  | a :: rest =>
    if a == 63 then
      match rest with
      | [] => 0
      | b :: rest' =>
        if b == 62 || b == 0 then 0
        else if b == 10 then 2
        else if b == 13 then
          match rest' with
          | c :: _ => if c == 10 then 3 else 0
          | [] => 0
        else lineComment rest' + 2
    else if a == 10 || a == 13 || a == 0 then 0
    else lineComment rest + 1

/-- The rest of a comment between `/*` and `*/`. -/
def blockComment? : Bytes → Option Nat
  | [] => none
  | a :: rest =>
    if a == 0 then none
    else if a == 42 && rest.head? == some 47 then some 2
    else (blockComment? rest).map (· + 1)

/-- The length of one comment. -/
def commentLength (attributes : Bool) (bytes : Bytes) : Nat :=
  match bytes with
  | a :: b :: rest =>
    if a == 47 && b == 47 then lineComment rest + 2
    else if a == 47 && b == 42 then ((blockComment? rest).map (· + 2)).getD 0
    else if a == 35 then
      if b == 91 then (if attributes then 0 else 1)
      else if b == 63 || b == 10 || b == 13 || b == 0 then 1
      else lineComment rest + 2
    else 0
  | [a] => if a == 35 then 1 else 0
  | [] => 0

/-- The length of one blank or comment. -/
def triviumLength (attributes : Bool) (bytes : Bytes) : Nat :=
  let n := blankLength bytes
  if n == 0 then commentLength attributes bytes else n

/-- The length of a run of pieces, each as long as `one` says; `pending` bytes belong to a piece
already measured. -/
def runLength (one : Bytes → Nat) : Nat → Bytes → Nat
  | _, [] => 0
  | pending + 1, _ :: rest => runLength one pending rest + 1
  | 0, a :: rest =>
    match one (a :: rest) with
    | 0 => 0
    | n + 1 => runLength one n rest + 1

/-- Blanks at the front. -/
def blanks (bytes : Bytes) : Nat := runLength blankLength 0 bytes

/-! ## Outside the tags -/

/-- Whether a byte is white space in ASCII. -/
def isSpace (b : UInt8) : Bool := (9 ≤ b && b ≤ 13) || b == 32

/-- What follows white space and comments of two slashes, which reach to the end of their line even
behind a closing tag; none at a slash that begins no such comment. -/
def behindSpace? : Bool → Bytes → Option Bytes
  | _, [] => some []
  | false, a :: rest =>
    if isSpace a then behindSpace? false rest
    else if a == 47 then
      match rest with
      | b :: rest' => if b == 47 then behindSpace? true rest' else none
      | [] => none
    else some (a :: rest)
  | true, a :: rest =>
    if a == 10 then behindSpace? false rest
    else if a == 0 then some (a :: rest)
    else behindSpace? true rest

/-- Whether a closing tag comes next that ends a statement. -/
def closesStatement (bytes : Bytes) : Bool :=
  match behindSpace? false bytes with
  | some rest => beginsWith "?>" rest
  | none => false

/-- Whether nothing but white space and comments of two slashes is left. -/
def endsSource (bytes : Bytes) : Bool :=
  match behindSpace? false bytes with
  | some rest => rest.isEmpty
  | none => false

/-- The length of an opening tag. -/
def openTag (bytes : Bytes) : Nat :=
  if beginsWith "<?" bytes then
    if String.ofList (folded ((bytes.drop 2).take 3)) == "php" then 5
    else if beginsWith "=" (bytes.drop 2) then 3
    else 2
  else 0

/-- The length of the text outside the tags, with the opening tag that ends it; none if it holds a
NUL byte. Behind a closing tag the text may end early: where only comments are left, which then
stand inside the tags again. `fresh` says that the text, or a piece of it behind an angle, begins
here. -/
def outsideText? (early : Bool) : Bool → Bytes → Option Nat
  | _, [] => some 0
  | fresh, a :: rest =>
    if early && fresh && endsSource (a :: rest) then some 0
    else if a == 0 then none
    else if a == 60 then
      if rest.head? == some 63 then some (openTag (a :: rest))
      else (outsideText? early true rest).map (· + 1)
    else (outsideText? early false rest).map (· + 1)

/-- Whether the bytes begin with a closing tag. -/
def atClosingTag (bytes : Bytes) : Bool := beginsWith "?>" bytes

/-- The length of a stretch outside the tags, from its closing tag on. -/
def interpolationLength (bytes : Bytes) : Nat :=
  if atClosingTag bytes then ((outsideText? true true (bytes.drop 2)).map (· + 2)).getD 0 else 0

/-- The length of one blank, comment, or stretch outside the tags. -/
def gapLength (attributes : Bool) (bytes : Bytes) : Nat :=
  let n := interpolationLength bytes
  if n == 0 then triviumLength attributes bytes else n

/-- Blanks and comments at the front. -/
def trivia (attributes : Bool) (bytes : Bytes) : Nat := runLength (triviumLength attributes) 0 bytes

/-- All that may stand in front of the next token. -/
def gaps (bytes : Bytes) : Nat := runLength (gapLength false) 0 bytes

/-- All that may stand in front of the next token where attributes may come. -/
def gapsBeforeAttributes (bytes : Bytes) : Nat := runLength (gapLength true) 0 bytes

/-- What may stand in front of the next token where a statement may end, and whether a closing tag
ends it there. `pending` bytes belong to a piece already measured. Whether a closing tag is in sight
is asked at the start and behind every piece that is no blank (`asks`). -/
def gapsBeforeEnd : Nat → Bool → Bytes → Nat × Bool
  | _, _, [] => (0, false)
  | pending + 1, asks, _ :: rest =>
    let (n, ended) := gapsBeforeEnd pending asks rest
    (n + 1, ended)
  | 0, asks, a :: rest =>
    if asks && closesStatement (a :: rest) then (0, true)
    else
      match blankLength (a :: rest), gapLength false (a :: rest) with
      | 0, 0 => (0, false)
      | 0, piece + 1 =>
        let (n, ended) := gapsBeforeEnd piece true rest
        (n + 1, ended)
      | blank + 1, _ =>
        let (n, ended) := gapsBeforeEnd blank false rest
        (n + 1, ended)

/-! ## Numbers -/

/-- The length of groups `_d…d` of digits. -/
def digitGroups (digit : UInt8 → Bool) : Bytes → Nat
  | a :: b :: rest =>
    if digit a then digitGroups digit (b :: rest) + 1
    else if a == 95 && digit b then digitGroups digit rest + 2
    else 0
  | [a] => if digit a then 1 else 0
  | [] => 0

/-- The length of digits in groups, the first of which is not empty. -/
def digitsLength (digit : UInt8 → Bool) (bytes : Bytes) : Nat :=
  match bytes with
  | a :: _ => if digit a then digitGroups digit bytes else 0
  | [] => 0

def isHexDigit (b : UInt8) : Bool :=
  isDigit b || (65 ≤ b && b ≤ 70) || (97 ≤ b && b ≤ 102)

def isOctalDigit (b : UInt8) : Bool := 48 ≤ b && b ≤ 55

def isBinaryDigit (b : UInt8) : Bool := b == 48 || b == 49

/-- The length of digits behind a two-byte base mark, with the mark; zero if there are none. -/
def markedDigits (digit : UInt8 → Bool) (bytes : Bytes) : Nat :=
  match digitsLength digit (bytes.drop 2) with
  | 0 => 0
  | n + 1 => n + 3

/-- The length of an integer: decimal without leading zero, or a zero with octal digits, or digits
behind a base mark. -/
def integerLength (bytes : Bytes) : Nat :=
  match bytes with
  | [] => 0
  | a :: rest =>
    if a == 48 then
      let octal := digitGroups isOctalDigit rest + 1
      match rest with
      | [] => 1
      | b :: rest' =>
        if b == 120 || b == 88 then max 1 (markedDigits isHexDigit bytes)
        else if b == 98 || b == 66 then max 1 (markedDigits isBinaryDigit bytes)
        else if b == 111 || b == 79 then digitGroups isOctalDigit rest' + 2
        else octal
    else digitsLength isDigit bytes

/-- The length of an exponent. -/
def exponentLength (bytes : Bytes) : Nat :=
  match bytes with
  | e :: rest =>
    if e == 101 || e == 69 then
      let sign := match rest with
        | s :: _ => if s == 43 || s == 45 then 1 else 0
        | [] => 0
      match digitsLength isDigit (rest.drop sign) with
      | 0 => 0
      | n + 1 => n + 2 + sign
    else 0
  | [] => 0

/-- The length of a float: digits with a point, an exponent, or both. Any of the digits may be
missing, but for those of the exponent; so a point alone is a float. -/
def floatLength (bytes : Bytes) : Nat :=
  let whole := digitGroups isDigit bytes
  let rest := bytes.drop whole
  let point :=
    match rest with
    | p :: after => if p == 46 then digitGroups isDigit after + 1 else 0
    | [] => 0
  let exponent := exponentLength (rest.drop point)
  if exponent + point == 0 then 0 else whole + point + exponent

end FacadeStubs.Php.Lexical
