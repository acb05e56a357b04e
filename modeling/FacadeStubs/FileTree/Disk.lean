import FacadeStubs.FileTree.Basic
import FacadeStubs.Path

/-!
# File operations

A disk is a tree with a working directory. Paths are followed name by name: a name that is missing
and a name below a file are different errors. An operation that fails may already have changed the
disk, so it gives both its outcome and the disk after it.

`createDirectories`, `write` and `replace` are the operations that change a disk. `write` overwrites
a file in place; `replace` fills a temporary file and renames it, so that the old content stays
until the new one is complete.
-/
namespace FacadeStubs

/-- Why a file operation failed. -/
inductive FileError where
  | missing
  | busy
  | occupied
  | notDirectory
  | isDirectory
  | notText
  deriving Repr, DecidableEq

/-- The text of an error, with its number. -/
def FileError.message : FileError → String
  | missing => "No such file or directory (os error 2)"
  | busy => "Device or resource busy (os error 16)"
  | occupied => "File exists (os error 17)"
  | notDirectory => "Not a directory (os error 20)"
  | isDirectory => "Is a directory (os error 21)"
  | notText => "stream did not contain valid UTF-8"

/-- A step along a path. -/
inductive Step where
  | up
  | name (text : String)
  deriving Repr, DecidableEq

/-- What a path ends with. -/
inductive Ending where
  | plain
  | slash
  | dot
  deriving Repr, DecidableEq

/-- A path as directions. -/
structure Route where
  absolute : Bool
  steps : List Step
  ending : Ending
  deriving Repr, DecidableEq

namespace Route

/-- The step of a component. -/
def step? : Path.Component → Option Step
  | .name n => some (.name (String.ofList n))
  | .up => some .up
  | _ => none

/-- The directions of a path. -/
def ofPath (path : String) : Route where
  absolute := Path.isAbsolute path
  steps := (Path.components path).filterMap step?
  ending :=
    let segments := (Path.segments path).reverse
    if path.isEmpty then .plain
    else if (segments.find? fun s => !s.isEmpty) == some ['.'] then .dot
    else if segments.head? == some [] then .slash
    else .plain

/-- The directions to the directory that holds the last step. -/
def parent (r : Route) : Route := { r with steps := r.steps.dropLast, ending := .plain }

end Route

/-- A tree, and the place that relative paths start from. -/
structure Disk where
  top : Entry
  here : Place := []
  deriving Inhabited

/-- A file operation: its outcome and the disk after it. -/
abbrev FileAction (α : Type) := ExceptT FileError (StateM Disk) α

namespace Disk

/-- Follows steps from a place. Every step starts at a directory. -/
def follow (top : Entry) : Place → List Step → Except FileError Place
  | place, [] => .ok place
  | place, s :: rest =>
    match top.at? place with
    | none => .error .missing
    | some (.file _) => .error .notDirectory
    | some (.dir entries) =>
      match s with
      | .up => follow top place.dropLast rest
      | .name n =>
        if (entries.lookup n).isSome then follow top (place ++ [n]) rest else .error .missing

/-- The place that directions lead to, with the entry there. Behind a slash stands a directory. -/
def locate (d : Disk) (r : Route) : Except FileError (Place × Entry) := do
  if !r.absolute && r.steps.isEmpty && r.ending == .plain then throw .missing
  let place ← follow d.top (if r.absolute then [] else d.here) r.steps
  match d.top.at? place with
  | none => throw .missing
  | some e => if r.ending != .plain && !e.isDir then throw .notDirectory else return (place, e)

/-- The entry that a path names. -/
def entryAt (d : Disk) (path : String) : Except FileError Entry :=
  (d.locate (Route.ofPath path)).map (·.2)

/-- Whether a path names anything. -/
def contains (d : Disk) (path : String) : Bool := (d.entryAt path).toOption.isSome

/-- Whether a path names a file. -/
def isFile (d : Disk) (path : String) : Bool :=
  match d.entryAt path with
  | .ok (.file _) => true
  | _ => false

/-- The bytes of a file. -/
def read (d : Disk) (path : String) : Except FileError Bytes :=
  match d.entryAt path with
  | .ok (.file content) => .ok content
  | .ok (.dir _) => .error .isDirectory
  | .error e => .error e

/-- The text of a file. -/
def readText (d : Disk) (path : String) : Except FileError (List Char) := do
  match Utf8.decode? (← d.read path) with
  | some text => return text
  | none => throw .notText

/-- The absolute path of what a path names, without detours. -/
def canonical (d : Disk) (path : String) : Except FileError String :=
  (d.locate (Route.ofPath path)).map fun (place, _) => "/" ++ joined "/" place

end Disk

namespace FileAction

/-- The disk as it is. -/
def disk : FileAction Disk := get

/-- What looking at the disk gives. -/
def look {α : Type} (question : Disk → Except FileError α) : FileAction α := do
  match question (← disk) with
  | .ok a => return a
  | .error e => throw e

/-- Changes the tree. -/
def change (f : Entry → Entry) : FileAction Unit :=
  modify fun d => { d with top := f d.top }

/-- Makes one directory. -/
def createDirectory (r : Route) : FileAction Unit := do
  match r.steps.getLast? with
  | some (.name n) =>
    let (place, e) ← look fun d => d.locate { r.parent with ending := .dot }
    if !e.isDir then throw .notDirectory
    if (e.at? [n]).isSome then throw .occupied
    change fun top => top.put (place ++ [n]) (.dir [])
  | _ =>
    let _ ← look fun d => d.locate r
    throw .occupied

/-- Whether directions lead to a directory. -/
def leadsToDirectory (r : Route) : FileAction Bool := do
  match (← disk).locate r with
  | .ok (_, e) => return e.isDir
  | .error _ => return false

/-- Makes a directory, or finds that it is there. -/
def ensureDirectory (r : Route) : FileAction Unit := do
  try createDirectory r
  catch e => if ← leadsToDirectory r then pure () else throw e

/-- Makes a directory and those above it that are missing, `n` levels up at most. -/
def createDirectoriesWithin (r : Route) : Nat → FileAction Unit
  | 0 => ensureDirectory r
  | n + 1 => do
    try ensureDirectory r
    catch e =>
      if e == .missing then
        createDirectoriesWithin r.parent n
        ensureDirectory r
      else throw e

/-- Makes a directory and those above it that are missing. -/
def createDirectories (r : Route) : FileAction Unit :=
  if r.steps.isEmpty then pure () else createDirectoriesWithin r (r.steps.length - 1)

/-- The place and the name that a new file is made at. -/
def target (r : Route) : FileAction (Place × String) := do
  match r.steps.getLast? with
  | some (.name n) =>
    let (place, _) ← look fun d => d.locate { r.parent with ending := .dot }
    return (place, n)
  | _ =>
    let _ ← look fun d => d.locate r
    throw .isDirectory

/-- Opens a file for writing and empties it, or makes a new one; `onlyNew` refuses one that is
there. -/
def openFile (r : Route) (onlyNew : Bool) : FileAction Place := do
  if r.ending == .dot then
    let _ ← look fun d => d.locate r
    throw (if onlyNew then .occupied else .isDirectory)
  let (place, n) ← target r
  if r.ending == .slash then throw .isDirectory
  match (← disk).top.at? (place ++ [n]) with
  | some (.dir _) => throw (if onlyNew then .occupied else .isDirectory)
  | some (.file _) => if onlyNew then throw .occupied
  | none => pure ()
  change fun top => top.put (place ++ [n]) (.file [])
  return place ++ [n]

/-- Writes a file in place. -/
def write (path : String) (content : Bytes) : FileAction Unit := do
  let place ← openFile (Route.ofPath path) false
  change fun top => top.put place (.file content)

/-- A name that a directory does not have. -/
def freshName (entries : List (String × Entry)) : String :=
  let names := (List.range (entries.length + 1)).map fun n => ".tmp" ++ toString n
  (names.find? fun n => (entries.lookup n).isNone).getD ".tmp"

/-- Fills a new file with a name of its own in a directory. -/
def writeTemporary (directory : Route) (content : Bytes) : FileAction Place := do
  let (place, e) ← look fun d => d.locate { directory with ending := .dot }
  match e with
  | .file _ => throw .notDirectory
  | .dir entries =>
    let temporary := place ++ [freshName entries]
    change fun top => top.put temporary (.file content)
    return temporary

/-- Gives the file at a place the name that directions lead to, in place of the file there. -/
def rename (source : Place) (r : Route) : FileAction Unit := do
  match r.steps.getLast?, r.ending with
  | some (.name _), .dot =>
    let _ ← look fun d => d.locate r
    throw .busy
  | some (.name n), ending =>
    let (place, e) ← look fun d => d.locate { r.parent with ending := .dot }
    if ending == .slash then throw .notDirectory
    if ((e.at? [n]).map Entry.isDir).getD false then throw .isDirectory
    let moved := (← disk).top.at? source
    match moved with
    | none => throw .missing
    | some file => change fun top => (top.remove source).put (place ++ [n]) file
  | _, _ => throw .busy

/-- Whether an output is there; if not, an empty file is made in its place. -/
def probe (r : Route) : FileAction Bool := do
  match (← disk).locate r with
  | .ok _ => return false
  | .error .missing =>
    let _ ← openFile r true
    return true
  | .error e => throw e

/-- Writes a file by way of a temporary one in the same directory. If that fails, nothing of it
stays behind. -/
def replace (path : String) (directory : Route) (content : Bytes) : FileAction Unit := do
  let r := Route.ofPath path
  let temporary ← writeTemporary directory content
  let dropTemporary := change fun top => top.remove temporary
  let created ← tryCatch (probe r) fun e => do
    dropTemporary
    throw e
  tryCatch (rename temporary r) fun e => do
    dropTemporary
    if created then
      let (place, _) ← look fun d => d.locate r
      change fun top => top.remove place
    throw e

end FileAction

end FacadeStubs
