/-!
# Path patterns

A pattern is read in two steps. `elements` takes its characters apart: escapes are undone, and a
class in brackets becomes one element. `parse` builds the tokens: it finds the alternatives in
braces and decides which pairs of stars stand for whole path components.

Elements come in order and a fault in the characters is the last of them, so the first fault of a
pattern is the one that is reported.
-/
namespace FacadeStubs.Glob

/-- What can be wrong with a pattern. -/
inductive Fault where
  | unclosedClass
  | invalidRange (first last : Char)
  | unopenedGroup
  | unclosedGroup
  | danglingEscape
  deriving Repr, DecidableEq

/-- What is wrong, in words. -/
def Fault.message : Fault → String
  | unclosedClass => "unclosed character class; missing ']'"
  | invalidRange first last =>
    "invalid range; '" ++ String.singleton first ++ "' > '" ++ String.singleton last ++ "'"
  | unopenedGroup => "unopened alternate group; missing '\x7b' (maybe escape '\x7d' with '[\x7d]'?)"
  | unclosedGroup => "unclosed alternate group; missing '\x7d' (maybe escape '\x7b' with '[\x7b]'?)"
  | danglingEscape => "dangling '\\'"

/-- A class of characters: ranges, or all but them. -/
structure CharClass where
  negated : Bool
  ranges : List (Char × Char)
  deriving Repr, DecidableEq

/-! ## Elements -/

/-- A sign or character of a pattern. -/
inductive Element where
  | any
  | star
  | openGroup
  | closeGroup
  | comma
  | charClass (members : CharClass)
  | char (c : Char) (escaped : Bool)
  | fault (cause : Fault)
  deriving Repr, DecidableEq

/-- A class that is being read; its ranges are in reverse. -/
structure OpenClass where
  negated : Bool
  ranges : List (Char × Char) := []
  /-- No member has been read. -/
  isFirst : Bool := true
  /-- A hyphen has been read, and the end of its range has not. -/
  inRange : Bool := false

namespace OpenClass

/-- A further member. -/
def push (o : OpenClass) (c : Char) : OpenClass :=
  { o with ranges := (c, c) :: o.ranges, isFirst := false, inRange := false }

/-- The end of a range whose start is the last member. -/
def close (o : OpenClass) (last : Char) : Except Fault OpenClass :=
  match o.ranges with
  | (first, _) :: rest =>
    if last < first then .error (.invalidRange first last)
    else .ok { o with ranges := (first, last) :: rest, isFirst := false, inRange := false }
  | [] => .ok (o.push last)

/-- A character that does not end the class. A hyphen between two members makes a range. -/
def read (o : OpenClass) (c : Char) : Except Fault OpenClass :=
  if o.inRange then o.close c
  else if c == '-' && !o.isFirst then .ok { o with inRange := true }
  else .ok (o.push c)

/-- The class as it stands at its closing bracket. A hyphen at the end is a member. -/
def finish (o : OpenClass) : CharClass :=
  ⟨o.negated, (if o.inRange then ('-', '-') :: o.ranges else o.ranges).reverse⟩

end OpenClass

/-- The elements of a pattern, of which a class may be open. A closing bracket right behind the
opening one is a member. -/
def elementsFrom : Option OpenClass → List Char → List Element
  | some _, [] => [.fault .unclosedClass]
  | some o, c :: rest =>
    if c == ']' && !o.isFirst then .charClass o.finish :: elementsFrom none rest
    else
      match o.read c with
      | .ok o' => elementsFrom (some o') rest
      | .error cause => [.fault cause]
  | none, [] => []
  | none, '?' :: rest => .any :: elementsFrom none rest
  | none, '*' :: rest => .star :: elementsFrom none rest
  | none, '\x7b' :: rest => .openGroup :: elementsFrom none rest
  | none, '\x7d' :: rest => .closeGroup :: elementsFrom none rest
  | none, ',' :: rest => .comma :: elementsFrom none rest
  | none, '[' :: '!' :: rest => elementsFrom (some { negated := true }) rest
  | none, '[' :: '^' :: rest => elementsFrom (some { negated := true }) rest
  | none, '[' :: rest => elementsFrom (some { negated := false }) rest
  | none, '\\' :: c :: rest => .char c true :: elementsFrom none rest
  | none, ['\\'] => [.fault .danglingEscape]
  | none, c :: rest => .char c false :: elementsFrom none rest

/-- The elements of a pattern. -/
def elements (text : String) : List Element := elementsFrom none text.toList

/-- The last character of an element. -/
def Element.lastChar : Element → Char
  | any => '?'
  | star => '*'
  | openGroup => '\x7b'
  | closeGroup => '\x7d'
  | comma => ','
  | charClass _ => ']'
  | char c _ => c
  | fault _ => '\\'

/-! ## Tokens -/

/-- A piece of a pattern. -/
inductive Token where
  | literal (c : Char)
  | any
  | zeroOrMore
  /-- Any number of whole components at the start. -/
  | recursivePrefix
  /-- Anything below a directory. -/
  | recursiveSuffix
  /-- Any number of whole components in between. -/
  | recursiveMiddle
  | charClass (members : CharClass)
  | alternates (branches : List (List Token))
  deriving Repr

/-- A group that is open: the branch it stands in and its own branches so far, all in reverse. -/
structure Frame where
  outer : List Token
  done : List (List Token)

/-- The tokens read so far: those of the current branch in reverse, and the groups around it. -/
structure Draft where
  current : List Token := []
  frames : List Frame := []

namespace Draft

def push (p : Draft) (tokens : List Token) : Draft :=
  { p with current := tokens.reverse ++ p.current }

/-- A group begins. -/
def openGroup (p : Draft) : Draft := ⟨[], ⟨p.current, []⟩ :: p.frames⟩

/-- A comma divides the branches of a group and else stands for itself. -/
def comma (p : Draft) : Draft :=
  match p.frames with
  | f :: fs => ⟨[], { f with done := p.current.reverse :: f.done } :: fs⟩
  | [] => p.push [.literal ',']

/-- A group ends. -/
def closeGroup (p : Draft) : Except Fault Draft :=
  match p.frames with
  | f :: fs => .ok ⟨.alternates (p.current.reverse :: f.done).reverse :: f.outer, fs⟩
  | [] => .error .unopenedGroup

/-- The components that a pair of stars stands for take the place of the token in front of it, the
separator, unless that already stands for components itself. -/
def recurse (p : Draft) (token : Token) : Draft :=
  match p.current with
  | .recursivePrefix :: _ => p
  | .recursiveSuffix :: _ => p
  | _ :: earlier => { p with current := token :: earlier }
  | [] => p

end Draft

/-- Whether an element is a separator that is not escaped. -/
def isSeparator : Element → Bool
  | .char c escaped => c == '/' && !escaped
  | _ => false

/-- What a pair of stars does: the tokens after it, and whether it takes the separator behind it
along. `previous` is the character in front of the pair, `next` the element behind it. -/
def pairOfStars (p : Draft) (previous : Option Char) (next : Option Element) : Draft × Bool :=
  let twoStars := (p.push [.zeroOrMore, .zeroOrMore], false)
  let inGroup := !p.frames.isEmpty
  let beforeSeparator := next.any isSeparator
  if p.current.isEmpty then
    if next.isNone || beforeSeparator then (p.push [.recursivePrefix], beforeSeparator)
    else twoStars
  else if previous == some '/' ||
      (inGroup && (previous == some ',' || previous == some '\x7b')) then
    if next.isNone || (inGroup && (next == some .comma || next == some .closeGroup)) then
      (p.recurse .recursiveSuffix, false)
    else if beforeSeparator then (p.recurse .recursiveMiddle, true)
    else twoStars
  else twoStars

/-- Reads elements into tokens. -/
def tokensFrom (previous : Option Char) (p : Draft) : List Element → Except Fault (List Token)
  | [] => if p.frames.isEmpty then .ok p.current.reverse else .error .unclosedGroup
  | .star :: .star :: separator :: rest =>
    let (p', taken) := pairOfStars p previous (some separator)
    if taken then tokensFrom (some '/') p' rest else tokensFrom (some '*') p' (separator :: rest)
  | [.star, .star] => tokensFrom (some '*') (pairOfStars p previous none).1 []
  | e :: rest =>
    let further (p' : Draft) := tokensFrom (some e.lastChar) p' rest
    match e with
    | .any => further (p.push [.any])
    | .star => further (p.push [.zeroOrMore])
    | .openGroup => further p.openGroup
    | .comma => further p.comma
    | .closeGroup =>
      match p.closeGroup with
      | .ok p' => further p'
      | .error cause => .error cause
    | .charClass members => further (p.push [.charClass members])
    | .char c _ => further (p.push [.literal c])
    | .fault cause => .error cause

/-- Reads a pattern. -/
def parse (text : String) : Except Fault (List Token) := tokensFrom none {} (elements text)

end FacadeStubs.Glob
