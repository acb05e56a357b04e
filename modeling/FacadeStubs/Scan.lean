import FacadeStubs.Candidate
import FacadeStubs.FileTree.Disk
import FacadeStubs.Glob.Match

/-!
# Source files

The scan of a directory: its source files in the order of a walk, without hidden directories and
without files that an exclude pattern matches.
-/
namespace FacadeStubs

/-- A source file that a scan has found. -/
structure SourceFile where
  path : String
  /-- The names on the way from the scanned directory. -/
  names : Place
  content : Bytes

namespace SourceFile

/-- The path from the scanned directory. -/
def relativePath (f : SourceFile) : String := joined "/" f.names

/-- The class that the text of the file seems to declare; a file that is no text has none. -/
def candidate? (f : SourceFile) : Option Candidate :=
  (Utf8.decode? f.content).bind Candidate.ofText?

end SourceFile

/-- Whether a name is that of a source file. -/
def isSourceName (fileName : String) : Bool := Path.extension? fileName == some "php"

/-- Whether the name of a directory hides it from a scan. -/
def isHidden (name : String) : Bool := name.toList.head? == some '.'

/-- The source files below a directory. If the path names a file, that is the only one. -/
def sourceFiles (path : String) : Entry → List SourceFile
  | .file content => if (Path.fileName? path).any isSourceName then [⟨path, [], content⟩] else []
  | .dir entries =>
    ((Entry.filesBelow (fun n => !isHidden n) (.dir entries)).filter fun f =>
      f.1.getLast?.any isSourceName).map fun f => ⟨Path.joinAll path f.1, f.1, f.2⟩

/-- The files of a scan that no exclude pattern matches. -/
def scan (d : Disk) (path : String) (excluded : List (List Glob.Token)) :
    Except FileError (List SourceFile) :=
  (d.entryAt path).map fun entry =>
    (sourceFiles path entry).filter fun f =>
      !excluded.any fun pattern => Glob.accepts pattern (Utf8.bytesOf f.relativePath)

end FacadeStubs
