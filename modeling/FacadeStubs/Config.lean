import FacadeStubs.Error
import FacadeStubs.Text.Blank

/-!
# Configuration

What a run can be told, with a default for everything, and the checks that a config has to pass.
-/
namespace FacadeStubs

/-- How stub classes share namespace blocks. -/
inductive Grouping where
  /-- One block for each namespace. -/
  | grouped
  /-- A new block whenever the namespace changes. -/
  | interleaved
  deriving Repr, DecidableEq, Inhabited

/-- The class that facades extend by default. -/
def defaultMarker : String := "Flawlol\\Facade\\Abstract\\Facade"

/-- The settings of a run. -/
structure Config where
  projectDir : Option String := none
  /-- The directory scanned for facades, below the project. -/
  sourceDir : String := "src"
  /-- The helper file, below the project. -/
  output : String := "_ide-helper.php"
  /-- The classes and interfaces that mark a facade. -/
  markers : List String := [defaultMarker]
  /-- Service classes by service key, keys ascending. -/
  services : List (String × String) := []
  parameters : List (String × String) := []
  /-- A service key that is the name of a class stands for that class. -/
  autowire : Bool := true
  grouping : Grouping := .grouped
  atomicWrite : Bool := true
  excludedPaths : List String := []
  /-- Directories that only add classes to the index. -/
  indexPaths : List String := []
  deriving Repr, DecidableEq, Inhabited

namespace Config

/-- The project directory; the working directory unless something else is given. -/
def directory (c : Config) : String := c.projectDir.getD "."

/-- The names of config files, in the order in which they are looked for. -/
def fileNames : List String := ["facade-helper.yaml", ".facade-helper.yaml"]

/-- The first fault of a config: of its markers, output, patterns, services. -/
def fault? (c : Config) : Option ConfigFault :=
  if c.markers.all isAllBlank then some .noMarker
  else if c.output.isEmpty then some .noOutput
  else
    (c.excludedPaths.findSome? badPattern?).or
      ((c.services.find? fun s => isAllBlank s.2).map fun s => .noServiceClass s.1)
where
  badPattern? (pattern : String) : Option ConfigFault :=
    match Glob.parse pattern with
    | .ok _ => none
    | .error cause => some (.badPattern pattern cause)

end Config

end FacadeStubs
