/-!
# White space

The characters with the property White_Space, and what is done at them: trimming a text and
cutting it into words.
-/
namespace FacadeStubs

/-- White_Space: the ASCII blanks, U+0085, U+00A0 and the separators above. -/
def isBlank (c : Char) : Bool :=
  let n := c.toNat
  (9 ≤ n && n ≤ 13) || n == 32 || n == 0x85 || n == 0xA0 || n == 0x1680 ||
    (0x2000 ≤ n && n ≤ 0x200A) || n == 0x2028 || n == 0x2029 || n == 0x202F || n == 0x205F ||
    n == 0x3000

/-- Drops the longest ending on which `p` holds. -/
def dropEndWhile (p : Char → Bool) (text : List Char) : List Char :=
  (text.reverse.dropWhile p).reverse

/-- A text without the blanks at both ends. -/
def trimBlanks (text : List Char) : List Char :=
  dropEndWhile isBlank (text.dropWhile isBlank)

/-- A string without the blanks at both ends. -/
def trimmed (s : String) : String := String.ofList (trimBlanks s.toList)

/-- Whether a string holds nothing but blanks. -/
def isAllBlank (s : String) : Bool := s.toList.all isBlank

/-- The words still to come, given the word that is being read (its characters reversed). -/
def wordsFrom (current : List Char) : List Char → List (List Char)
  | [] => if current.isEmpty then [] else [current.reverse]
  | c :: rest =>
    if isBlank c then
      if current.isEmpty then wordsFrom [] rest else current.reverse :: wordsFrom [] rest
    else wordsFrom (c :: current) rest

/-- The maximal stretches without blanks, in order. -/
def blankWords (text : List Char) : List (List Char) := wordsFrom [] text

end FacadeStubs
