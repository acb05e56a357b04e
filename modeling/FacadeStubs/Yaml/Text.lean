/-!
# Characters and lines of YAML

Which characters a YAML text may hold, where its lines break, and how the lines of a scalar are
folded: a single line break between two words becomes a blank, further ones are kept.
-/
namespace FacadeStubs.Yaml

/-- Characters that may stand in a text: no controls but tab and line breaks, no byte order mark. -/
def isAllowed (c : Char) : Bool :=
  let n := c.toNat
  n == 9 || n == 10 || n == 13 || (32 ≤ n && n ≤ 126) || n == 0x85 ||
    (0xA0 ≤ n && n ≤ 0xFFFD && n != 0xFEFF) || 0x10000 ≤ n

def isBreak (c : Char) : Bool :=
  c == '\n' || c == '\r' || c == '\x85' || c == '\u2028' || c == '\u2029'

/-- A blank or a tab. -/
def isSpacing (c : Char) : Bool := c == ' ' || c == '\t'

/-- Whether a text begins with spacing or a line break, or is at its end. -/
def endsWord : List Char → Bool
  | [] => true
  | c :: _ => isSpacing c || isBreak c

/-- A line break at the front: what it reads as, and the text behind it. -/
def lineBreak? : List Char → Option (Char × List Char)
  | '\r' :: '\n' :: rest => some ('\n', rest)
  | c :: rest =>
    if c == '\u2028' || c == '\u2029' then some (c, rest)
    else if isBreak c then some ('\n', rest)
    else none
  | [] => none

/-- Whether a text begins with three equal marks and the end of a word. -/
def atMarks (mark : Char) : List Char → Bool
  | a :: b :: c :: rest => a == mark && b == mark && c == mark && endsWord rest
  | _ => false

/-- Whether a line begins with a mark of a document's start or end. -/
def atDocumentMark (text : List Char) : Bool := atMarks '-' text || atMarks '.' text

/-- Characters of anchors and of directive names. -/
def isNameChar (c : Char) : Bool := c.isAlphanum || c == '_' || c == '-'

/-- A scalar while its lines are folded. All texts are in reverse. -/
structure Folding where
  text : List Char := []
  /-- Spacing behind the text, on the same line. -/
  spacing : List Char := []
  /-- A line has ended behind the text. -/
  isBroken : Bool := false
  firstBreak : Option Char := none
  moreBreaks : List Char := []

namespace Folding

/-- Spacing; at the start of a line it does not count. -/
def space (f : Folding) (c : Char) : Folding :=
  if f.isBroken then f else { f with spacing := c :: f.spacing }

/-- A line break. -/
def lineBreak (f : Folding) (c : Char) : Folding :=
  if f.isBroken then { f with moreBreaks := c :: f.moreBreaks }
  else { f with spacing := [], isBroken := true, firstBreak := some c }

/-- A line break that is escaped: it and the spacing behind it do not count. -/
def escapedBreak (f : Folding) : Folding := { f with isBroken := true, firstBreak := none }

/-- Adds the spacing or the folded line breaks behind the text. -/
def settle (f : Folding) : Folding :=
  let added :=
    if f.isBroken then
      match f.firstBreak with
      | some '\n' => if f.moreBreaks.isEmpty then [' '] else f.moreBreaks
      | some c => f.moreBreaks ++ [c]
      | none => f.moreBreaks
    else f.spacing
  { text := added ++ f.text }

/-- Adds characters behind what has been folded. -/
def push (f : Folding) (cs : List Char) : Folding :=
  let g := f.settle
  { g with text := cs.reverse ++ g.text }

/-- The text with nothing behind it. -/
def result (f : Folding) : String := String.ofList f.text.reverse

end Folding

end FacadeStubs.Yaml
