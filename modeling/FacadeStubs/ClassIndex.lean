import FacadeStubs.Declaration

/-!
# The class index

All declarations found in a set of files, one for each name. Names are compared by key: leading
backslashes dropped, ASCII letters lowered. The index answers what a running program would be asked
by reflection: parents, interfaces, methods and constants of a class. Hierarchies may be cyclic, so
every walk carries the keys that it has seen; a walk takes at most as many steps as the index has
edges, which is the fuel it is given.
-/
namespace FacadeStubs

/-- The key by which class names are compared. -/
def classKey (name : String) : String := lowerCase (withoutRoot name)

/-- Declarations in the order in which they were added, no two with the same key. -/
structure ClassIndex where
  decls : List ClassDecl := []
  filesIndexed : Nat := 0
  distinct : (decls.map fun d => classKey d.fqn).Nodup := by
    first | exact List.nodup_nil | decide +kernel

namespace ClassIndex

/-- The declaration of a name. -/
def get? (index : ClassIndex) (name : String) : Option ClassDecl :=
  index.decls.find? fun d => classKey d.fqn == classKey name

/-- Whether a name is declared. -/
def contains (index : ClassIndex) (name : String) : Bool := (index.get? name).isSome

/-- A declaration whose key is free can be added. -/
theorem distinct_append {index : ClassIndex} {d : ClassDecl} (h : ¬index.contains d.fqn = true) :
    ((index.decls ++ [d]).map fun e => classKey e.fqn).Nodup := by
  have hfree : ∀ e ∈ index.decls, classKey e.fqn ≠ classKey d.fqn := by
    simpa [contains, get?] using h
  rw [List.map_append, List.nodup_append]
  exact ⟨index.distinct, by simp, by simpa using hfree⟩

/-- Adds a declaration. The first declaration of a name stays. -/
def insert (index : ClassIndex) (d : ClassDecl) : ClassIndex :=
  if h : index.contains d.fqn then index
  else { index with decls := index.decls ++ [d], distinct := distinct_append h }

/-- Adds the declarations of a file. -/
def addFile (index : ClassIndex) (facts : FileFacts) : ClassIndex :=
  facts.classes.foldl insert { index with filesIndexed := index.filesIndexed + 1 }

/-- The number of declarations. -/
def size (index : ClassIndex) : Nat := index.decls.length

/-! ## Parents and interfaces -/

/-- The parent that an indexed class names. -/
def parent? (index : ClassIndex) (name : String) : Option String :=
  match index.get? name with
  | some d => if d.kind == .cls then d.extendsNames.head? else none
  | none => none

/-- The chain of parents above `name`, up to a key of `seen`. -/
def climb (index : ClassIndex) : Nat → List String → String → List String
  | 0, _, _ => []
  | fuel + 1, seen, name =>
    match index.parent? name with
    | none => []
    | some p =>
      if seen.contains (classKey p) then []
      else p :: climb index fuel (classKey p :: seen) p

/-- The parents of a class, nearest first. The last may be a class that is not indexed. -/
def ancestors (index : ClassIndex) (name : String) : List String :=
  index.climb index.size [classKey name] name

/-- The names that an indexed declaration lists under `extends`. -/
def extendsOf (index : ClassIndex) (name : String) : List String :=
  ((index.get? name).map (·.extendsNames)).getD []

/-- The names that an indexed declaration lists under `implements`. -/
def implementsOf (index : ClassIndex) (name : String) : List String :=
  ((index.get? name).map (·.implementsNames)).getD []

/-- The traits that an indexed declaration uses. -/
def traitsOf (index : ClassIndex) (name : String) : List String :=
  ((index.get? name).map (·.traits)).getD []

/-- The names found from a worklist, each key once: a name is followed by its successors, nearest
levels first. -/
def breadthFirst (next : String → List String) : Nat → List String → List String → List String
  | 0, _, _ => []
  | _ + 1, _, [] => []
  | fuel + 1, seen, name :: work =>
    if seen.contains (classKey name) then breadthFirst next fuel seen work
    else name :: breadthFirst next fuel (classKey name :: seen) (work ++ next name)

/-- The names found from a worklist, each key once: all that is found below a name comes before the
next name of the list. -/
def depthFirst (next : String → List String) : Nat → List String → List String → List String
  | 0, _, _ => []
  | _ + 1, _, [] => []
  | fuel + 1, seen, name :: work =>
    if seen.contains (classKey name) then depthFirst next fuel seen work
    else name :: depthFirst next fuel (classKey name :: seen) (next name ++ work)

/-- The number of edges that a relation between indexed names has. -/
def edges (index : ClassIndex) (targets : ClassDecl → List String) : Nat :=
  index.decls.foldr (fun d n => (targets d).length + n) 0

/-- The interfaces that a class and its parents name, before their own parents are added. -/
def directInterfaces (index : ClassIndex) (name : String) : List String :=
  let own :=
    match index.get? name with
    | some d => d.implementsNames ++ if d.kind == .interface then d.extendsNames else []
    | none => []
  own ++ (index.ancestors name).flatMap index.implementsOf

/-- All interfaces of a class: those it names, those its parents name, and their parents. -/
def interfaces (index : ClassIndex) (name : String) : List String :=
  let start := index.directInterfaces name
  breadthFirst index.extendsOf (start.length + index.edges (·.extendsNames)) [] start

/-- Whether an interface is among those of a class. -/
def implements (index : ClassIndex) (name target : String) : Bool :=
  (index.interfaces name).any fun i => classKey i == classKey target

/-- Whether a class derives from another class or from an interface. No class derives from
itself. -/
def isSubclassOf (index : ClassIndex) (name target : String) : Bool :=
  classKey name != classKey target &&
    ((index.ancestors name).any (fun a => classKey a == classKey target) ||
      index.implements name target)

/-! ## Methods and constants -/

/-- A class and its parents, as far as they are indexed. -/
def chain (index : ClassIndex) (name : String) : List ClassDecl :=
  ((name :: index.ancestors name).takeWhile index.contains).filterMap index.get?

/-- The traits of a declaration and the traits these use, in the order in which their methods are
taken. -/
def usedTraits (index : ClassIndex) (d : ClassDecl) : List String :=
  depthFirst index.traitsOf (d.traits.length + index.edges (·.traits)) [] d.traits

/-- The methods that a declaration has by itself or takes from traits. -/
def contributed (index : ClassIndex) (d : ClassDecl) : List Method :=
  d.methods ++ (index.usedTraits d).flatMap fun t => ((index.get? t).map (·.methods)).getD []

/-- The first method of each name, except for the (lowered) names of `seen`. -/
def firstOfEachName : List String → List Method → List Method
  | _, [] => []
  | seen, m :: rest =>
    if seen.contains (lowerCase m.name) then firstOfEachName seen rest
    else m :: firstOfEachName (lowerCase m.name :: seen) rest

/-- The methods that can be called on a class: its own, those of its traits, then what it inherits
and does not override. -/
def methodsOf (index : ClassIndex) (name : String) : List Method :=
  firstOfEachName [] ((index.chain name).flatMap index.contributed)

/-- The method of a name, in any letter case, among those that can be called. -/
def findMethod? (index : ClassIndex) (name method : String) : Option Method :=
  (index.methodsOf name).find? fun m => sameIgnoringCase m.name method

/-- The parents and traits that are looked up for the methods of `names` and are not indexed. The
chain ends at the first name that is not. -/
def missingAlong (index : ClassIndex) : List String → List String
  | [] => []
  | name :: rest =>
    match index.get? name with
    | none => [name]
    | some d => d.traits.filter (!index.contains ·) ++ missingAlong index rest

/-- Parents and directly used traits of a class that are not indexed; their methods are missing
from `methodsOf`. -/
def unindexedSupertypes (index : ClassIndex) (name : String) : List String :=
  index.missingAlong (name :: index.ancestors name)

/-- The value of a constant of a class: its own, a parent's, or an interface's. -/
def constant? (index : ClassIndex) (name const : String) : Option Literal :=
  let owners := name :: (index.ancestors name ++ index.interfaces name)
  (owners.filterMap index.get?).findSome? fun d => d.constant? const

end ClassIndex

end FacadeStubs
