import FacadeStubs.Declaration
import FacadeStubs.Php.Constant
import FacadeStubs.Php.Parse

/-!
# Facts of a source file

`fileFacts?` reads a source file and lists its class-like declarations, wherever in the file they
stand, with every class name made absolute. Namespaces and imports hold from their position on.

A source that is not in the grammar has declarations, too: those in the tree of what a parser recovers
from it. Which tree that is the grammar leaves open, so it comes from outside (`Recovery`), and what is
proved of files and of runs holds for every choice.
-/
namespace FacadeStubs

open Php

namespace Analysis

/-! ## Types and members -/

/-- The type that a word or name stands for. -/
def namedType (names : NameScope) (text : String) : TypeHint :=
  let word := lowerCase text
  if TypeHint.builtins.contains word then .builtin word else .cls (names.resolve text)

mutual

/-- The type of a node. -/
def typeHint (source : Bytes) (names : NameScope) : Node → TypeHint
  | .mk kind start stop children =>
    let text := trimmed (Node.text source (.mk kind start stop []))
    match kind, children with
    | .optionalType, inner :: _ => .nullable (typeHint source names inner)
    | .unionType, members => .union (typeHints source names members)
    | .intersectionType, members => .intersection (typeHints source names members)
    | .primitiveType, _ => .builtin (lowerCase text)
    | _, _ => namedType names text

/-- The types of nodes that stand side by side. -/
def typeHints (source : Bytes) (names : NameScope) : List Node → List TypeHint
  | [] => []
  | n :: rest => typeHint source names n :: typeHints source names rest

end

/-- The type among the children of a declaration, if there is one. -/
def declaredType? (source : Bytes) (names : NameScope) (n : Node) : Option TypeHint :=
  (n.children.find? fun c => c.kind.isType).map (typeHint source names)

/-- The name of a variable or reference, without the signs in front of it. -/
def variableName (text : String) : String :=
  let named := trimBlanks (text.toList.dropWhile (· == '&'))
  String.ofList (named.dropWhile (· == '$'))

/-- The parameter of a node. -/
def param? (source : Bytes) (scope : ClassScope) (n : Node) : Option Param :=
  if [Kind.simpleParameter, .variadicParameter, .promotedParameter].contains n.kind then
    (n.children.find? fun c => c.kind == .dollarName || c.kind == .byReference).map fun name =>
      { name := variableName (name.text source)
        typeHint := declaredType? source scope.names n
        default := (n.child? .defaultValue).bind fun d =>
          d.children.head?.map (constantOf source scope)
        variadic := n.kind == .variadicParameter
        byRef := name.kind == .byReference || (n.child? .referenceModifier).isSome }
  else none

/-- The value of the first `return` among the statements of a body. -/
def firstReturn? (source : Bytes) (scope : ClassScope) (body : Node) : Option Literal :=
  (body.child? .returnStatement).bind fun r => r.children.head?.map (constantOf source scope)

/-- The visibility that the last modifier of the kind gives. -/
def visibility (source : Bytes) (n : Node) : Visibility :=
  match (n.children.filter fun c => c.kind == .visibilityModifier).getLast? with
  | some c => Visibility.ofKeyword (c.text source)
  | none => .everyone

/-- The method of a node. -/
def method? (source : Bytes) (scope : ClassScope) (kind : ClassKind) (n : Node) : Option Method :=
  (n.child? .name).map fun name =>
    { name := name.text source
      visibility := visibility source n
      isStatic := (n.child? .staticModifier).isSome
      isAbstract := (n.child? .abstractModifier).isSome || kind == .interface
      params := ((n.child? .parameters).map fun ps =>
        ps.children.filterMap (param? source scope)).getD []
      returnType := declaredType? source scope.names n
      constantReturn := (n.child? .block).bind (firstReturn? source scope)
      line := n.line source }

/-- The constants of a node, each with its name. -/
def constants (source : Bytes) (scope : ClassScope) (n : Node) : List (String × Literal) :=
  n.children.filterMap fun element =>
    match element.kind, element.children with
    | .constElement, [name, value] => some (name.text source, constantOf source scope value)
    | _, _ => none

/-- The names of a list, made absolute. -/
def classNames (source : Bytes) (names : NameScope) (clause : Node) : List String :=
  (clause.children.filter fun c => c.kind.isName).map fun c => names.resolve (c.text source)

/-- The names of a clause that a declaration may have. -/
def clauseNames (source : Bytes) (names : NameScope) (n : Node) (kind : Kind) : List String :=
  ((n.child? kind).map (classNames source names)).getD []

/-! ## Declarations -/

/-- The declaration of a node. Only a class has a parent that its body can refer to. -/
def classDecl? (source : Bytes) (path : String) (names : NameScope) (kind : ClassKind) (n : Node) :
    Option ClassDecl := do
  let name := (← n.child? .name).text source
  if name.isEmpty then none
  else
    let supers := clauseNames source names n .baseClause
    let members := ((n.child? .memberList).map Node.children).getD []
    let scope : ClassScope :=
      { names
        cls := qualifiedName names.namespaceName name
        parent := if kind == .cls then supers.head? else none }
    let ofKind (k : Kind) := members.filter fun m => m.kind == k
    return {
      kind, name, path
      namespaceName := names.namespaceName
      isAbstract := (n.child? .abstractModifier).isSome
      extendsNames := supers
      implementsNames := clauseNames source names n .interfaceClause
      traits := (ofKind .traitUse).flatMap (classNames source names)
      constants := (ofKind .constDeclaration).flatMap (constants source scope)
      methods := (ofKind .method).filterMap (method? source scope kind)
      line := n.line source }

/-- Whether a node changes the scope of names or declares a class. -/
def isLandmark : Kind → Bool
  | .namespaceDefinition | .namespaceUse | .declaration _ => true
  | _ => false

mutual

/-- The nodes below a node, itself included, that change the scope or declare a class, in document
order. -/
def landmarks : Node → List Node
  | .mk kind start stop children =>
    let below := landmarksIn children
    if isLandmark kind then .mk kind start stop children :: below else below

/-- The same of nodes that stand side by side. -/
def landmarksIn : List Node → List Node
  | [] => []
  | n :: rest => landmarks n ++ landmarksIn rest

end

/-- The name of a namespace without leading backslashes; none for the global one. -/
def namespaceText? (source : Bytes) (n : Node) : Option String :=
  (n.child? .namespaceName).map fun name => withoutRoot (name.text source)

/-- The declarations behind the landmarks of a file; none if the text of an import has its braces
crossed. -/
def classesFrom? (source : Bytes) (path : String) : NameScope → List Node → Option (List ClassDecl)
  | _, [] => some []
  | names, n :: rest =>
    match n.kind with
    | .namespaceDefinition =>
      classesFrom? source path (names.enter (namespaceText? source n)) rest
    | .namespaceUse =>
      (names.addUse? (n.text source)).bind fun names' => classesFrom? source path names' rest
    | .declaration kind =>
      (classesFrom? source path names rest).map fun later =>
        (classDecl? source path names kind n).toList ++ later
    | _ => classesFrom? source path names rest

end Analysis

open Analysis

/-- What a parser recovers from sources that are not in the grammar. -/
class Recovery where
  tree : Bytes → Node

/-- Nothing is recovered from a source that is not in the grammar. -/
@[reducible]
def Recovery.nothing : Recovery := ⟨fun _ => .mk .program 0 0 []⟩

/-- The facts of a source file with the tree that it has. There is no answer if the text of an import
has its braces crossed. -/
def treeFacts? (path : String) (source : Bytes) (tree : Node) : Option FileFacts :=
  let marks := landmarks tree
  (classesFrom? source path {} marks).map fun classes =>
    { path, classes
      namespaceName := (marks.find? fun n => n.kind == .namespaceDefinition).bind
        (namespaceText? source) }

/-- The facts of a source file. Those of a file that is not in the grammar are taken from what is
recovered of it, and say so. -/
def fileFacts? [Recovery] (path : String) (source : Bytes) : Option FileFacts :=
  match parse? source with
  | none =>
    (treeFacts? path source (Recovery.tree source)).map fun facts => { facts with hasErrors := true }
  | some tree => treeFacts? path source tree

end FacadeStubs
