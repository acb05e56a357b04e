import FacadeStubs.Literal
import FacadeStubs.TypeHint

/-!
# Declarations

The class-like declarations of a source file with their methods and constants, as facts that no
longer depend on the file: every class name in them is a full name.
-/
namespace FacadeStubs

/-- The four kinds of class-like declarations. -/
inductive ClassKind where
  | cls
  | interface
  | trait
  | enum
  deriving Repr, DecidableEq, Inhabited

/-- Who may call a member. -/
inductive Visibility where
  | everyone
  | heirs
  | owner
  deriving Repr, DecidableEq, Inhabited

/-- The visibility that a keyword of any letter case names; anything else leaves a member open to
everyone. -/
def Visibility.ofKeyword (keyword : String) : Visibility :=
  match lowerCase keyword with
  | "private" => .owner
  | "protected" => .heirs
  | _ => .everyone

/-- A parameter of a method. -/
structure Param where
  /-- Name without the dollar sign. -/
  name : String
  typeHint : Option TypeHint := none
  default : Option Literal := none
  variadic : Bool := false
  byRef : Bool := false

/-- A parameter that a caller may leave out: it has a default or takes what is left. -/
def Param.isSpare (p : Param) : Bool := p.default.isSome || p.variadic

/-- A method of a class-like declaration. -/
structure Method where
  name : String
  visibility : Visibility := .everyone
  isStatic : Bool := false
  isAbstract : Bool := false
  params : List Param := []
  returnType : Option TypeHint := none
  /-- The expression of the first `return` of the body. -/
  constantReturn : Option Literal := none
  /-- Line of the declaration, from 1. -/
  line : Nat := 1

namespace Method

/-- Instance methods open to everyone: those that a facade forwards to. -/
def isForwardable (m : Method) : Bool := m.visibility == .everyone && !m.isStatic

/-- Whether the first parameter of a list has a default and may be left out in a call. -/
def isHeadOptional : List Param → Bool
  | [] => false
  | p :: later => p.default.isSome && later.all Param.isSpare

/-- Whether parameter `i` is optional: it has a default, and so has every later one that is not
variadic. -/
def isParamOptional (m : Method) (i : Nat) : Bool := isHeadOptional (m.params.drop i)

end Method

/-- A class, interface, trait or enum. -/
structure ClassDecl where
  kind : ClassKind := .cls
  /-- No namespace and the empty one are both the global namespace. -/
  namespaceName : Option String := none
  name : String
  isAbstract : Bool := false
  /-- The parent of a class, the parents of an interface. -/
  extendsNames : List String := []
  implementsNames : List String := []
  /-- Traits used in the body. -/
  traits : List String := []
  constants : List (String × Literal) := []
  methods : List Method := []
  path : String := ""
  line : Nat := 1

/-- A name below a namespace. -/
def qualifiedName (namespaceName : Option String) (name : String) : String :=
  match namespaceName with
  | some ns => if ns.isEmpty then name else ns ++ "\\" ++ name
  | none => name

namespace ClassDecl

/-- The full name, without a leading backslash. -/
def fqn (d : ClassDecl) : String := qualifiedName d.namespaceName d.name

/-- Only concrete classes have instances. -/
def isInstantiable (d : ClassDecl) : Bool := d.kind == .cls && !d.isAbstract

/-- The method of a name, in any letter case. -/
def method? (d : ClassDecl) (name : String) : Option Method :=
  d.methods.find? fun m => sameIgnoringCase m.name name

/-- The value of a constant, by its exact name. -/
def constant? (d : ClassDecl) (name : String) : Option Literal :=
  (d.constants.find? fun c => c.1 == name).map (·.2)

end ClassDecl

/-- What one source file declares. -/
structure FileFacts where
  path : String
  /-- The first namespace that the file declares. -/
  namespaceName : Option String := none
  classes : List ClassDecl := []
  hasErrors : Bool := false

end FacadeStubs
