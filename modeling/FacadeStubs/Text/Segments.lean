/-!
# Cutting and comparing text

Names are compared without regard to ASCII letter case and are cut at separators. All of it
works on lists of characters; the string forms are wrappers.
-/
namespace FacadeStubs

/-- ASCII letters lowered, all else kept. -/
def lowered (text : List Char) : List Char := text.map Char.toLower

/-- ASCII letters lowered, all else kept. -/
def lowerCase (s : String) : String := String.ofList (lowered s.toList)

/-- Equality that ignores the case of ASCII letters. -/
def sameIgnoringCase (a b : String) : Bool := lowerCase a == lowerCase b

/-- The pieces between separators: `n` separators make `n + 1` pieces. -/
def pieces (separator : Char) : List Char → List (List Char)
  | [] => [[]]
  | c :: rest =>
    if c == separator then [] :: pieces separator rest
    else
      match pieces separator rest with
      | [] => [[c]]
      | p :: ps => (c :: p) :: ps

/-- What stands before and after the first separator. -/
def cutAt? (separator : Char) : List Char → Option (List Char × List Char)
  | [] => none
  | c :: rest =>
    if c == separator then some ([], rest)
    else (cutAt? separator rest).map fun (before, after) => (c :: before, after)

/-- What stands before and after the last separator. -/
def cutAtLast? (separator : Char) (text : List Char) : Option (List Char × List Char) :=
  (cutAt? separator text.reverse).map fun (after, before) => (before.reverse, after.reverse)

/-- The rest of a text after a given beginning. -/
def afterStart? : List Char → List Char → Option (List Char)
  | [], text => some text
  | _ :: _, [] => none
  | e :: expected, c :: text => if e == c then afterStart? expected text else none

/-- A class name without its leading backslashes. -/
def withoutRoot (name : String) : String := String.ofList (name.toList.dropWhile (· == '\\'))

/-- The strings with a separator between neighbours. -/
def joined (separator : String) (parts : List String) : String := separator.intercalate parts

end FacadeStubs
