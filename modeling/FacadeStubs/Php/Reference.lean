import FacadeStubs.NameScope
import FacadeStubs.Php.Tree
import FacadeStubs.Text.Utf8

/-!
# Class references in source

Source text that leaves its class has to name classes by their full names. `references` lists the
places of an expression that name a class, in document order, and `absoluteSource` is the text of
the expression with these places replaced. Trees hold no nodes for comments, so the first child of a node
is never one: a comment in front of a name is passed over when the tree is made.
-/
namespace FacadeStubs.Php

/-- The names in scope inside a class body. -/
structure ClassScope where
  names : NameScope
  /-- The class itself. -/
  cls : String
  /-- The class that it extends. -/
  parent : Option String

/-- The class that a relative scope word names. -/
def ClassScope.relative? (scope : ClassScope) (word : String) : Option String :=
  match lowerCase word with
  | "self" | "static" => some scope.cls
  | "parent" => scope.parent
  | _ => none

/-- A stretch of source and the text that takes its place. -/
structure Replacement where
  start : Nat
  stop : Nat
  text : String
  deriving Repr, DecidableEq

/-- Whether the first child of such a node may name a class. -/
def Kind.namesClass : Kind → Bool
  | .classConstant | .scopedCall | .scopedProperty | .objectCreation => true
  | _ => false

/-- Whether a node is a name. -/
def Kind.isName : Kind → Bool
  | .name | .qualifiedName => true
  | _ => false

mutual

/-- The places below a node that name a class, with their absolute form. -/
def references (source : Bytes) (scope : ClassScope) : Node → List Replacement
  | .mk .relativeScope start stop _ =>
    match scope.relative? (Node.text source (.mk .relativeScope start stop [])) with
    | some cls => [⟨start, stop, "\\" ++ cls⟩]
    | none => []
  | .mk kind _ _ (.mk first start stop below :: rest) =>
    if kind.namesClass && first.isName then
      let name := Node.text source (.mk first start stop below)
      ⟨start, stop, "\\" ++ scope.names.resolve name⟩ :: referencesIn source scope rest
    else references source scope (.mk first start stop below) ++ referencesIn source scope rest
  | .mk _ _ _ [] => []

/-- The places below nodes that stand side by side. -/
def referencesIn (source : Bytes) (scope : ClassScope) : List Node → List Replacement
  | [] => []
  | n :: rest => references source scope n ++ referencesIn source scope rest

end

/-- The bytes between two positions as text; bytes that are none show as replacement characters. -/
def sliceText (source : Bytes) (start stop : Nat) : List Char :=
  Utf8.lossy ((source.drop start).take (stop - start))

/-- The text from one position to another with replacements made in between. -/
def replaced (source : Bytes) (stop : Nat) : Nat → List Replacement → List Char
  | start, [] => sliceText source start stop
  | start, r :: rest =>
    sliceText source start r.start ++ r.text.toList ++ replaced source stop r.stop rest

/-- The text of an expression with every class name in it absolute. -/
def absoluteSource (source : Bytes) (scope : ClassScope) (n : Node) : String :=
  String.ofList (trimBlanks (replaced source n.stop n.start (references source scope n)))

end FacadeStubs.Php
