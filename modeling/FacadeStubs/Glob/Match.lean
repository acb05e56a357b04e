import FacadeStubs.Glob.Pattern
import FacadeStubs.Text.Utf8

/-!
# Matching paths

A pattern matches a path byte by byte. The meaning of a token is given by what may be left of a path
behind it: `rests` lists these remainders, and a pattern matches if it can leave nothing.
-/
namespace FacadeStubs.Glob

/-- The separator of path components. -/
def separator : UInt8 := 47

/-- All endings of a path, itself included. -/
def endings : Bytes → List Bytes
  | [] => [[]]
  | b :: rest => (b :: rest) :: endings rest

/-- What stands behind each separator of a path. -/
def behindSeparators : Bytes → List Bytes
  | [] => []
  | b :: rest => if b == separator then rest :: behindSeparators rest else behindSeparators rest

/-- The rest of a path behind given bytes. -/
def behind? : Bytes → Bytes → Option Bytes
  | [], path => some path
  | _ :: _, [] => none
  | e :: expected, b :: path => if e == b then behind? expected path else none

/-- The bytes of a range of characters: both ends byte by byte, and what lies between the last byte
of the one and the first byte of the other. -/
def inRange (b : UInt8) (range : Char × Char) : Bool :=
  let first := Utf8.encode [range.1]
  let last := Utf8.encode [range.2]
  if range.1 == range.2 then first.contains b
  else
    first.contains b || last.contains b ||
      (match first.getLast?, last.head? with
       | some lo, some hi => lo ≤ b && b ≤ hi
       | _, _ => false)

/-- Whether a class has a byte. -/
def CharClass.has (k : CharClass) (b : UInt8) : Bool := k.ranges.any (inRange b) != k.negated

mutual

/-- Whether a token adds nothing to a pattern: a group whose branches are all empty. -/
def Token.isVoid : Token → Bool
  | .alternates branches => allVoid branches
  | _ => false

/-- Whether a sequence of tokens adds nothing to a pattern. -/
def isVoidSequence : List Token → Bool
  | [] => true
  | t :: rest => t.isVoid && isVoidSequence rest

/-- Whether all branches of a group are empty. -/
def allVoid : List (List Token) → Bool
  | [] => true
  | branch :: rest => isVoidSequence branch && allVoid rest

end

mutual

/-- What may be left of a path behind a token. -/
def Token.rests : Token → Bytes → List Bytes
  | .literal c, path => (behind? (Utf8.encode [c]) path).toList
  | .any, path => match path with
    | [] => []
    | _ :: rest => [rest]
  | .zeroOrMore, path => endings path
  | .recursivePrefix, path => path :: behindSeparators path
  | .recursiveSuffix, path => match path with
    | [] => []
    | b :: rest => if b == separator then endings rest else []
  | .recursiveMiddle, path => match path with
    | [] => []
    | b :: rest => if b == separator then rest :: behindSeparators rest else []
  | .charClass k, path => match path with
    | [] => []
    | b :: rest => if k.has b then [rest] else []
  | .alternates branches, path => if allVoid branches then [path] else branchRests branches path

/-- What may be left of one of some paths behind a sequence of tokens, each remainder once. -/
def sequenceRests : List Token → List Bytes → List Bytes
  | [], paths => paths
  | t :: later, paths => sequenceRests later (paths.flatMap t.rests).eraseDups

/-- What may be left of a path behind one of the branches that are not empty. -/
def branchRests : List (List Token) → Bytes → List Bytes
  | [], _ => []
  | branch :: others, path =>
    (if isVoidSequence branch then [] else sequenceRests branch [path]) ++ branchRests others path

end

/-- Whether a pattern matches a whole path. A pair of stars alone matches every path. -/
def accepts (pattern : List Token) (path : Bytes) : Bool :=
  match pattern with
  | [.recursivePrefix] => true
  | _ => (sequenceRests pattern [path]).any List.isEmpty

end FacadeStubs.Glob
