import FacadeStubs.Text.Segments

/-!
# Paths

Paths as text, and their components. Repeated separators and dots between separators make no
difference to the components.
-/
namespace FacadeStubs.Path

/-- A component of a path. -/
inductive Component where
  | root
  /-- A dot at the start of a relative path. -/
  | here
  | up
  | name (text : List Char)
  deriving Repr, DecidableEq

/-- What stands between the separators of a path. -/
def segments (path : String) : List (List Char) := pieces '/' path.toList

/-- Whether a path starts at the root. -/
def isAbsolute (path : String) : Bool := path.toList.head? == some '/'

/-- The component of a segment; empty segments and single dots have none. -/
def ofSegment? : List Char → Option Component
  | [] => none
  | ['.'] => none
  | ['.', '.'] => some .up
  | s => some (.name s)

/-- The components of a path. -/
def components (path : String) : List Component :=
  let start :=
    if isAbsolute path then [Component.root]
    else if (segments path).head? == some ['.'] then [.here]
    else []
  start ++ (segments path).filterMap ofSegment?

/-- A path below another. An absolute path stays what it is; the empty one adds a separator. -/
def join (base path : String) : String :=
  if isAbsolute path then path
  else if base.isEmpty || base.toList.getLast? == some '/' then base ++ path
  else base ++ "/" ++ path

/-- The segments behind the first `n` that are components. -/
def behind : Nat → List (List Char) → List (List Char)
  | _, [] => []
  | n, s :: rest =>
    if (ofSegment? s).isNone then behind n rest
    else
      match n with
      | 0 => s :: rest
      | n + 1 => behind n rest

/-- A path relative to another whose components it starts with. -/
def stripPrefix? (path base : String) : Option String :=
  let front := components base
  if front.isPrefixOf (components path) then
    let n := (front.filter fun c => c != .root && c != .here).length
    some (joined "/" ((behind n (segments path)).map String.ofList))
  else none

/-- The file name of a path: its last component, if that is a name. -/
def fileName? (path : String) : Option String :=
  match (components path).getLast? with
  | some (.name n) => some (String.ofList n)
  | _ => none

/-- The part of a file name behind its last dot; a dot at the start does not count. -/
def extension? (fileName : String) : Option String :=
  match cutAtLast? '.' fileName.toList with
  | some (stem, extension) => if stem.isEmpty then none else some (String.ofList extension)
  | none => none

/-- The paths of a name below a directory, one name after the other. -/
def joinAll (base : String) (names : List String) : String := names.foldl join base

end FacadeStubs.Path
