import FacadeStubs.Analysis
import FacadeStubs.Facade
import FacadeStubs.Registry
import FacadeStubs.Scan
import FacadeStubs.Stub.Writer

/-!
# Generating the helper file

A run scans the sources, indexes them, finds the facades and their services, and writes the helper
file. Everything is decided before the first byte is written, so a facade without a service ends the
run and leaves the helper file as it was. A source that is not in the grammar is indexed with what a parser
recovers from it (`Recovery`), which a run is given from outside.
-/
namespace FacadeStubs

/-- A facade of the helper file. -/
structure FacadeSummary where
  cls : String
  accessor : String
  service : String
  /-- The number of methods it forwards. -/
  methods : Nat
  deriving Repr, DecidableEq

/-- The result of a run. -/
structure Report where
  output : String
  filesScanned : Nat
  candidates : Nat
  facades : List FacadeSummary
  deriving Repr, DecidableEq

/-- A service one of whose parents or traits is not in the index, so that methods may be missing. -/
structure OmittedMethods where
  service : String
  missing : String
  deriving Repr, DecidableEq

namespace ClassIndex

/-- Adds the declarations of a source file, whose path is noted relative to a directory. There is no
answer if the text of an import has its braces crossed. -/
def addSource? [Recovery] (index : ClassIndex) (base path : String) (content : Bytes) :
    Option ClassIndex :=
  (fileFacts? ((Path.stripPrefix? path base).getD path) content).map index.addFile

/-- Adds source files in order. -/
def addSources? [Recovery] (index : ClassIndex) (base : String) :
    List SourceFile → Option ClassIndex
  | [] => some index
  | f :: rest => (index.addSource? base f.path f.content).bind fun i => i.addSources? base rest

/-- Adds the files of some paths in order; those that cannot be read are left out. -/
def addPaths? [Recovery] (index : ClassIndex) (d : Disk) (base : String) :
    List String → Option ClassIndex
  | [] => some index
  | path :: rest =>
    match d.read path with
    | .ok content => (index.addSource? base path content).bind fun i => i.addPaths? d base rest
    | .error _ => index.addPaths? d base rest

end ClassIndex

namespace Generation

/-- A facade with its stub. -/
structure Item where
  stub : StubClass
  summary : FacadeSummary

/-- The project directory: as the registry says, or else as the config says. -/
def root (c : Config) (r : Registry) : String :=
  (r.parameter? Registry.projectDirKey).getD c.directory

/-- The exclude patterns of a config, or the fault of the first bad one. -/
def patterns : List String → Except Error (List (List Glob.Token))
  | [] => .ok []
  | p :: rest =>
    match Glob.parse p with
    | .error cause => .error (.invalidConfig (.badPattern p cause))
    | .ok tokens => (patterns rest).map (tokens :: ·)

/-- Scans a directory. -/
def scanAt (d : Disk) (path : String) (excluded : List (List Glob.Token)) :
    Except Error (List SourceFile) :=
  (scan d path excluded).mapError (.walk path)

/-- Adds source files to the index. -/
def indexed [Recovery] (index : ClassIndex) (base : String) (files : List SourceFile) :
    Except Error ClassIndex :=
  match index.addSources? base files with
  | some i => .ok i
  | none => .error .crossedBraces

/-- Adds the directories that are only indexed. -/
def indexDirectories [Recovery] (d : Disk) (base : String) (index : ClassIndex) :
    List String → Except Error ClassIndex
  | [] => .ok index
  | dir :: rest => do
    let files ← scanAt d (Path.join base dir) []
    let i ← indexed index base files
    indexDirectories d base i rest

/-- The service class that a config gives a key. -/
def service? (c : Config) (r : Registry) (index : ClassIndex) (id : String) : Option String :=
  if c.autowire then r.wiredService? index id else r.service? id

/-- The stub of a facade. There is none if a default of its service goes round in circles. -/
def itemOf (c : Config) (r : Registry) (index : ClassIndex) (f : Facade) : Except Error Item :=
  match service? c r index f.accessor with
  | none => .error (.serviceNotFound f.accessor)
  | some cls =>
    match index.get? cls with
    | none => .error (.serviceClassUnknown f.accessor cls)
    | some d =>
      if StubClass.hasTexts d.fqn index then
        let stub := StubClass.build f.namespaceName f.shortName d.fqn index
        .ok ⟨stub, ⟨f.fqn, f.accessor, d.fqn, stub.methods.length⟩⟩
      else .error (.endlessDefault d.fqn)

/-- The stub of a source file that declares a facade. -/
def itemOfFile (c : Config) (r : Registry) (index : ClassIndex) (f : SourceFile) :
    Except Error (Option Item) :=
  match f.candidate? with
  | none => .ok none
  | some candidate => do
    match ← Facade.ofCandidate index c.markers candidate with
    | none => return none
    | some facade => return some (← itemOf c r index facade)

/-- The stubs of source files up to the first error, and that error. -/
def itemsUntilError (c : Config) (r : Registry) (index : ClassIndex) :
    List SourceFile → List Item × Option Error
  | [] => ([], none)
  | f :: rest =>
    match itemOfFile c r index f with
    | .error e => ([], some e)
    | .ok none => itemsUntilError c r index rest
    | .ok (some item) =>
      let (items, error) := itemsUntilError c r index rest
      (item :: items, error)

/-- The stubs in the order in which they are written. -/
def ordered (grouping : Grouping) (stubs : List StubClass) : List StubClass :=
  match grouping with
  | .grouped => stubs.mergeSort fun a b => a.namespaceName ≤ b.namespaceName
  | .interleaved => stubs

/-- What a run has found out before it writes. -/
structure Plan where
  report : Report
  stubs : List StubClass

/-- The sources of a run and the index of all that it knows. -/
def gather [Recovery] (c : Config) (r : Registry) (d : Disk) :
    Except Error (List SourceFile × ClassIndex) := do
  let base := root c r
  let excluded ← patterns c.excludedPaths
  let files ← scanAt d (Path.join base c.sourceDir) excluded
  let index ← indexed {} base files
  return (files, ← indexDirectories d base index c.indexPaths)

/-- The services whose methods are not all known. -/
def omissions (index : ClassIndex) (items : List Item) : List OmittedMethods :=
  items.flatMap fun i =>
    (index.unindexedSupertypes i.summary.service).map fun m => ⟨i.summary.service, m⟩

/-- The plan of a run with the omissions that it came across, also when it fails. -/
def plan [Recovery] (c : Config) (r : Registry) (d : Disk) : List OmittedMethods × Except Error Plan :=
  match gather c r d with
  | .error e => ([], .error e)
  | .ok (files, index) =>
    let (items, error) := itemsUntilError c r index files
    let result := match error with
      | some e => .error e
      | none => .ok
        { report :=
            { output := Path.join (root c r) c.output
              filesScanned := files.length
              candidates := (files.filter fun f => f.candidate?.isSome).length
              facades := items.map (·.summary) }
          stubs := ordered c.grouping (items.map (·.stub)) }
    (omissions index items, result)

/-- Writes a helper file, and the directories above it that are missing. -/
def writeHelper (c : Config) (output : String) (stubs : List StubClass) : FileAction Unit := do
  let directory := (Route.ofPath output).parent
  let content := Utf8.bytesOf (helperText stubs)
  FileAction.createDirectories directory
  if c.atomicWrite then FileAction.replace output directory content
  else FileAction.write output content

/-- What a run leaves: warnings, the report or the error, and the disk. -/
structure Outcome where
  omissions : List OmittedMethods
  result : Except Error Report
  disk : Disk

/-- A run. -/
def run [Recovery] (c : Config) (r : Registry) (d : Disk) : Outcome :=
  match plan c r d with
  | (omitted, .error e) => ⟨omitted, .error e, d⟩
  | (omitted, .ok p) =>
    match (writeHelper c p.report.output p.stubs).run.run d with
    | (.ok _, d') => ⟨omitted, .ok p.report, d'⟩
    | (.error e, d') => ⟨omitted, .error (.persist p.report.output e), d'⟩

end Generation

end FacadeStubs
