import FacadeStubs.Candidate
import FacadeStubs.ClassIndex
import FacadeStubs.Decimal.Integer
import FacadeStubs.Error
import FacadeStubs.Export.Fold

/-!
# Facades

A facade is a concrete class under one of the markers. Its static method `getFacadeAccessor` names
the service that it forwards to, and the name is evaluated without running any code.
-/
namespace FacadeStubs

/-- A facade and the key of its service. -/
structure Facade where
  fqn : String
  /-- Empty for the global namespace. -/
  namespaceName : String
  shortName : String
  accessor : String
  path : String
  deriving Repr, DecidableEq

namespace Facade

/-- The method that names the service of a facade. -/
def accessorMethod : String := "getFacadeAccessor"

/-- Whether a class extends or implements one of the markers. -/
def isMarked (index : ClassIndex) (markers : List String) (fqn : String) : Bool :=
  markers.any fun m => index.isSubclassOf fqn m || index.implements fqn m

/-- The declaration of a candidate that is a facade: known, concrete and marked. -/
def eligible? (index : ClassIndex) (markers : List String) (c : Candidate) : Option ClassDecl :=
  (index.get? c.fqn).filter fun d => d.isInstantiable && isMarked index markers c.fqn

/-- The text of a key expression, where `follow` gives that of the constants it refers to. A late
static reference is one to the class that is called. -/
def keyWith (follow : String → String → Option String) (called : String) : Literal → Option String
  | .str s => some s
  | .int i => some (Decimal.intText i.toInt)
  | .classConst cls name => follow cls name
  | .lateStatic _ name => if lowerCase name == "class" then some called else follow called name
  | .binary op left right =>
    if op == "." then
      match keyWith follow called left, keyWith follow called right with
      | some l, some r => some (l ++ r)
      | _, _ => none
    else none
  | _ => none

/-- The text of a key expression, with `budget` references to constants followed one behind the
other. -/
def key? (index : ClassIndex) (called : String) : Nat → Literal → Option String
  | 0 => keyWith (fun _ _ => none) called
  | budget + 1 => keyWith
      (fun cls name => (index.constant? cls name).bind (key? index called budget)) called

/-- The service key that the accessor of a class names. -/
def accessorKey (index : ClassIndex) (d : ClassDecl) : Except Error String :=
  let key := (index.findMethod? d.fqn accessorMethod).bind fun m =>
    if m.isStatic then m.constantReturn.bind (key? index d.fqn Export.maxDepth) else none
  match key with
  | some k => .ok k
  | none => .error (.accessorUnresolved d.fqn)

/-- The facade that a candidate is, if it is one. -/
def ofCandidate (index : ClassIndex) (markers : List String) (c : Candidate) :
    Except Error (Option Facade) :=
  match eligible? index markers c with
  | none => .ok none
  | some d =>
    (accessorKey index d).map fun accessor => some
      { fqn := d.fqn, namespaceName := d.namespaceName.getD "", shortName := d.name, accessor
        path := d.path }

end Facade

end FacadeStubs
