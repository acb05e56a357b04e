import FacadeStubs.FileTree.Basic

/-!
# Changes of a file tree

What has to be written to make one tree out of another to which only files and directories were
added, or whose files got other contents.
-/
namespace FacadeStubs.Entry

/-- A directory to make, or a file to write. -/
inductive Change where
  | makeDirectory (place : Place)
  | writeFile (place : Place) (content : Bytes)
  deriving Repr, DecidableEq

namespace Change

/-- A change one level further down. -/
def below (name : String) : Change → Change
  | makeDirectory place => makeDirectory (name :: place)
  | writeFile place content => writeFile (name :: place) content

end Change

/-- The entries of what was there before, if it was a directory. -/
def entriesOf : Option Entry → List (String × Entry)
  | some (dir entries) => entries
  | _ => []

mutual

/-- The changes that make a new entry out of what was there before. -/
def changes (old : Option Entry) : Entry → List Change
  | file content =>
    match old with
    | some (file before) => if before == content then [] else [.writeFile [] content]
    | _ => [.writeFile [] content]
  | dir entries =>
    (if (old.map isDir).getD false then [] else [.makeDirectory []]) ++
      changesIn (entriesOf old) entries

/-- The changes of the entries of a directory. -/
def changesIn (old : List (String × Entry)) : List (String × Entry) → List Change
  | [] => []
  | (name, e) :: rest =>
    (changes (old.lookup name) e).map (Change.below name) ++ changesIn old rest

end

end FacadeStubs.Entry
