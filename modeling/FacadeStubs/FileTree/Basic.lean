import FacadeStubs.Text.Utf8

/-!
# File trees

A tree of directories and files, and the files of a tree in the order in which a walk finds them: by
name, a directory's contents in the place of the directory.
-/
namespace FacadeStubs

/-- A file or a directory. The names in a directory are different from each other. -/
inductive Entry where
  | file (content : Bytes)
  | dir (entries : List (String × Entry))
  deriving Inhabited

/-- A place in a tree: the names on the way from the top. -/
abbrev Place := List String

namespace Entry

def isDir : Entry → Bool
  | dir _ => true
  | file _ => false

/-- The entry at a place. -/
def at? : Entry → Place → Option Entry
  | e, [] => some e
  | file _, _ :: _ => none
  | dir entries, n :: rest => (entries.lookup n).bind fun e => e.at? rest

/-- The entries of a directory with the one of a name replaced, or added at the end. -/
def putName (name : String) (new : Entry) : List (String × Entry) → List (String × Entry)
  | [] => [(name, new)]
  | (n, e) :: rest => if n == name then (n, new) :: rest else (n, e) :: putName name new rest

/-- Puts an entry at a place. Directories on the way that are missing are made; nothing changes
below a file. -/
def put : Entry → Place → Entry → Entry
  | _, [], new => new
  | file content, _ :: _, _ => file content
  | dir entries, n :: rest, new =>
    dir (putName n (((entries.lookup n).getD (dir [])).put rest new) entries)

/-- Removes what is at a place. -/
def remove : Entry → Place → Entry
  | e, [] => e
  | file content, _ :: _ => file content
  | dir entries, [n] => dir (entries.filter fun x => x.1 != n)
  | dir entries, n :: m :: rest =>
    match entries.lookup n with
    | some e => dir (putName n (e.remove (m :: rest)) entries)
    | none => dir entries

/-- Entries with different names in ascending order of name. -/
def byName {α : Type} (entries : List (String × α)) : List (String × α) :=
  entries.mergeSort fun a b => a.1 ≤ b.1

mutual

/-- The files below a directory that `enter` allows to be entered, in the order of a walk. -/
def filesBelow (enter : String → Bool) : Entry → List (Place × Bytes)
  | file _ => []
  | dir entries => (byName (filesOf enter entries)).flatMap (·.2)

/-- For each entry of a directory the files that it stands for. -/
def filesOf (enter : String → Bool) :
    List (String × Entry) → List (String × List (Place × Bytes))
  | [] => []
  | (n, file content) :: rest => (n, [([n], content)]) :: filesOf enter rest
  | (n, dir entries) :: rest =>
    let below := if enter n then filesBelow enter (dir entries) else []
    (n, below.map fun f => (n :: f.1, f.2)) :: filesOf enter rest

end

end Entry

end FacadeStubs
