import FacadeStubs.Text.Segments

/-!
# Declared types

A parameter or return type as a declaration gives it: keywords, classes, and the three ways to
combine them. `TypeHint.render` writes a type as source text that names the same classes wherever
it stands.
-/
namespace FacadeStubs

/-- A declared parameter or return type. Classes are held by their full name, without the leading
backslash. -/
inductive TypeHint where
  | builtin (name : String)
  | cls (fqn : String)
  | nullable (inner : TypeHint)
  | union (members : List TypeHint)
  | intersection (members : List TypeHint)
  deriving Repr, BEq, Inhabited

namespace TypeHint

/-- Type keywords, which no namespace qualifies. -/
def builtins : List String :=
  ["array", "bool", "callable", "false", "float", "int", "iterable", "mixed", "never", "null",
   "object", "parent", "self", "static", "string", "true", "void"]

/-- Whether a type is an intersection, which a union has to put in parentheses. -/
def isIntersection : TypeHint → Bool
  | intersection _ => true
  | _ => false

/-- A keyword as source text. The keywords `self` and `static` give way to a class when one is
known: in another class they would name that one. -/
def renderBuiltin (selfClass : Option String) (name : String) : String :=
  match selfClass with
  | some fqn => if name == "self" || name == "static" then "\\" ++ fqn else name
  | none => name

/-- A type as source text, with `self` and `static` bound to `selfClass` when it is given. -/
def render (selfClass : Option String) : TypeHint → String
  | builtin name => renderBuiltin selfClass name
  | cls fqn => "\\" ++ fqn
  | nullable inner => "?" ++ inner.render selfClass
  | union members => joined "|" (members.attach.map fun ⟨m, _⟩ =>
      if m.isIntersection then "(" ++ m.render selfClass ++ ")" else m.render selfClass)
  | intersection members => joined "&" (members.attach.map fun ⟨m, _⟩ => m.render selfClass)

/-- Whether a method of this return type gives no value. -/
def isBottom : TypeHint → Bool
  | builtin name => name == "void" || name == "never"
  | _ => false

end TypeHint

end FacadeStubs
