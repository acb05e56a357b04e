import FacadeStubs.Declaration
import FacadeStubs.Text.Blank
import FacadeStubs.Text.Word

/-!
# The class a file seems to declare

Before anything is parsed, the text of a file is searched for the words `namespace` and `class` and
what follows them. The guess is the leftmost match of either; comments and strings count like all
other text.
-/
namespace FacadeStubs

/-- A class name guessed from the text of a file. -/
structure Candidate where
  namespaceName : Option String
  shortName : String
  deriving Repr, DecidableEq

/-- The full name of a candidate. -/
def Candidate.fqn (c : Candidate) : String :=
  match c.namespaceName with
  | some ns => ns ++ "\\" ++ c.shortName
  | none => c.shortName

namespace Candidate

/-- The first value that `match?` finds at a position of a text. -/
def firstMatch? {α : Type} (match? : List Char → Option α) : List Char → Option α
  | [] => match? []
  | c :: rest =>
    match match? (c :: rest) with
    | some a => some a
    | none => firstMatch? match? rest

/-- The stretch up to the first semicolon, when no line ends before it. -/
def untilSemicolon? : List Char → Option (List Char)
  | [] => none
  | c :: rest =>
    if c == ';' then some []
    else if c == '\n' then none
    else (untilSemicolon? rest).map (c :: ·)

/-- The shortest non-empty stretch of a line that a semicolon follows. -/
def stretch? : List Char → Option (List Char)
  | [] => none
  | c :: rest => if c == '\n' then none else (untilSemicolon? rest).map (c :: ·)

/-- The stretch after as many blanks as possible, of `n` blanks in front of `text`. The blanks are
given back from the last one on, and at least one stays behind. -/
def stretchAfterBlanks? : List Char → List Char → Option (List Char)
  | [], _ => none
  | [_], text => stretch? text
  | _ :: b :: blanks, text =>
    match stretchAfterBlanks? (b :: blanks) text with
    | some s => some s
    | none => stretch? (b :: blanks ++ text)

/-- The namespace stretch that starts here: the word, blanks, a stretch and a semicolon. -/
def namespaceHere? (text : List Char) : Option (List Char) :=
  match afterStart? "namespace".toList text with
  | some rest => stretchAfterBlanks? (rest.takeWhile isBlank) (rest.dropWhile isBlank)
  | none => none

/-- The class name that starts here: the word, blanks, and word characters. -/
def classHere? (text : List Char) : Option (List Char) :=
  match afterStart? "class".toList text with
  | some rest =>
    if (rest.takeWhile isBlank).isEmpty then none
    else
      let name := (rest.dropWhile isBlank).takeWhile isWordChar
      if name.isEmpty then none else some name
  | none => none

/-- The namespace of a text: the leftmost stretch, trimmed and without leading backslashes, unless
nothing is left of it. -/
def namespaceOf? (text : List Char) : Option String :=
  match firstMatch? namespaceHere? text with
  | some s =>
    let name := (trimBlanks s).dropWhile (· == '\\')
    if name.isEmpty then none else some (String.ofList name)
  | none => none

/-- The class that a text seems to declare. -/
def ofText? (text : List Char) : Option Candidate :=
  (firstMatch? classHere? text).map fun name =>
    ⟨namespaceOf? text, String.ofList name⟩

end Candidate

end FacadeStubs
