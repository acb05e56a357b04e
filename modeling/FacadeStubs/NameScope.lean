import FacadeStubs.Text.Blank
import FacadeStubs.Text.Segments

/-!
# Names in scope

A class name means something only where it stands: below a namespace, after a list of imports.
`NameScope` holds both, `NameScope.addUse?` reads the text of an import declaration, and
`NameScope.resolve` gives the full name that a written name stands for.
-/
namespace FacadeStubs

/-- The namespace at a place of a file and the class imports made in it so far. -/
structure NameScope where
  namespaceName : Option String := none
  /-- Lowered alias and full name, latest first. -/
  imports : List (String × String) := []
  deriving Repr, DecidableEq, Inhabited

/-- The last segment of a qualified name. -/
def lastSegment (name : String) : String :=
  match cutAtLast? '\\' name.toList with
  | some (_, last) => String.ofList last
  | none => name

/-- What follows a keyword of any letter case and the blanks after it; `none` when the text does
not start with the keyword or no blank follows it. -/
def afterKeyword? (keyword : String) (text : List Char) : Option (List Char) :=
  let n := keyword.length
  if lowered (text.take n) == keyword.toList then
    match text.drop n with
    | c :: rest => if isBlank c then some (rest.dropWhile isBlank) else none
    | [] => none
  else none

/-- Whether a member of an import declaration imports a function or a constant. -/
def importsNoClass (member : List Char) : Bool :=
  (afterKeyword? "function" member).isSome || (afterKeyword? "const" member).isSome

/-- The name that one clause `Name` or `Name as Alias` imports, with its lowered alias. -/
def importOf? (clause : List Char) : Option (String × String) :=
  match blankWords clause with
  | [] => none
  | name :: more =>
    let full := String.ofList (name.dropWhile (· == '\\'))
    match more with
    | word :: short :: _ =>
      if lowered word == ['a', 's'] then some (String.ofList (lowered short), full)
      else some (lowerCase (lastSegment full), full)
    | _ => some (lowerCase (lastSegment full), full)

/-- The clauses of the members between braces, each below the name in front of them. -/
def groupClauses (front : List Char) (members : List Char) : List (List Char) :=
  (((pieces ',' members).map trimBlanks).filter fun m => !m.isEmpty && !importsNoClass m).map
    fun m => front ++ '\\' :: m

/-- The clauses of a declaration's text. A text whose last closing brace stands before its first
opening brace has none. -/
def useClauses? (text : String) : Option (List (List Char)) :=
  let whole := trimBlanks text.toList
  let clause := trimBlanks ((afterKeyword? "use" whole).getD whole)
  let body := trimBlanks (dropEndWhile (· == ';') clause)
  if importsNoClass body then some []
  else
    match cutAt? '\x7b' body with
    | some (front, afterOpen) =>
      match cutAtLast? '\x7d' afterOpen with
      | some (members, _) =>
        some (groupClauses (dropEndWhile (· == '\\') (trimBlanks front)) members)
      | none =>
        if front.contains '\x7d' then none
        else some (((pieces ',' body).map trimBlanks).filter (!·.isEmpty))
    | none => some (((pieces ',' body).map trimBlanks).filter (!·.isEmpty))

namespace NameScope

/-- The scope at the start of a namespace. The empty namespace is the global one. -/
def ofNamespace (name : Option String) : NameScope :=
  { namespaceName := name.filter (!·.isEmpty) }

/-- A namespace begins: imports do not reach into it. -/
def enter (_ : NameScope) (name : Option String) : NameScope := ofNamespace name

/-- Imports one clause. -/
def addClause (scope : NameScope) (clause : List Char) : NameScope :=
  match importOf? clause with
  | some entry => { scope with imports := entry :: scope.imports }
  | none => scope

/-- Reads an import declaration; function and constant imports change nothing. -/
def addUse? (scope : NameScope) (text : String) : Option NameScope :=
  (useClauses? text).map fun clauses => clauses.foldl addClause scope

/-- A name below the current namespace. -/
def qualify (scope : NameScope) (name : String) : String :=
  match scope.namespaceName with
  | some ns => ns ++ "\\" ++ name
  | none => name

/-- The name that the latest import under an alias brought in. -/
def imported? (scope : NameScope) (short : List Char) : Option String :=
  (scope.imports.find? fun entry => entry.1 == String.ofList (lowered short)).map (·.2)

/-- The rest of a name after `namespace\` in any letter case. -/
def afterNamespaceWord? (name : List Char) : Option (List Char) :=
  if lowered (name.take 10) == "namespace\\".toList then some (name.drop 10) else none

/-- The full name of a written class name, without the leading backslash. -/
def resolve (scope : NameScope) (written : String) : String :=
  let name := trimBlanks written.toList
  match name with
  | '\\' :: absolute => String.ofList absolute
  | _ =>
    match afterNamespaceWord? name with
    | some relative => scope.qualify (String.ofList relative)
    | none =>
      match cutAt? '\\' name with
      | some (first, rest) =>
        match scope.imported? first with
        | some full => full ++ "\\" ++ String.ofList rest
        | none => scope.qualify (String.ofList name)
      | none => (scope.imported? name).getD (scope.qualify (String.ofList name))

end NameScope

end FacadeStubs
