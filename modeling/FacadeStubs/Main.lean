import FacadeStubs.CommandLine.Program
import FacadeStubs.FileTree.Changes

/-!
# Entry point

Reads the directories that a command works on into a disk, carries the command out there, and writes
what has changed. The arguments come as texts, and so do all paths; from a source that is not in the
grammar nothing is recovered.
-/
namespace FacadeStubs.Main

open CommandLine

/-- How deep directories are read. -/
def maxNesting : Nat := 256

/-- Reads the entry of a path. -/
def load : Nat → String → IO Entry
  | 0, _ => return .dir []
  | nesting + 1, path => do
    let real ← IO.FS.realPath path
    if ← real.isDir then
      let mut entries := []
      for e in ← real.readDir do
        let entry? ← try some <$> load nesting (path ++ "/" ++ e.fileName) catch _ => pure none
        if let some entry := entry? then entries := (e.fileName, entry) :: entries
      return .dir entries
    else
      let content ← IO.FS.readBinFile path
      return .file content.toList

/-- The names on the way to an absolute path. -/
def placeOf (path : String) : Place :=
  (Path.components path).filterMap fun c =>
    match c with
    | .name n => some (String.ofList n)
    | _ => none

/-- Adds a directory to a tree; one that cannot be read is left out. -/
def mount (top : Entry) (path : String) : IO Entry := do
  try
    let real := toString (← IO.FS.realPath path)
    if (top.at? (placeOf real)).isSome then return top
    else return top.put (placeOf real) (← load maxNesting real)
  catch _ => return top

/-- The directories that a command works on, besides the working directory. -/
def directories : Command → List String
  | .generate args => args.projectDir.toList
  | .init _ => []

/-- The disk that a command works on. -/
def loadDisk (command : Command) : IO Disk := do
  let here := toString (← IO.currentDir)
  let mut top ← mount (.dir []) here
  for path in directories command do
    top ← mount top path
  return { top, here := placeOf here }

/-- Makes a change on the real disk. -/
def store : Entry.Change → IO Unit
  | .makeDirectory place => IO.FS.createDirAll ("/" ++ joined "/" place)
  | .writeFile place content => do
    IO.FS.writeBinFile ("/" ++ joined "/" place) ⟨content.toArray⟩

/-- The text that answers a command line that asks for no command. -/
def usageText : Usage → String
  | .version => "facade-ide-helper 0.1.0\n"
  | .unknownCommand => "error: unrecognized subcommand\n"
  | .unknownArgument => "error: unexpected argument found\n"
  | .badValue => "error: a value is required for an option\n"
  | .repeatedOption => "error: an option cannot be used multiple times\n"
  | .unneededValue => "error: unexpected value for a flag\n"
  | .help | .noCommand =>
    "Generate IDE helper stubs for PHP facades\n\n" ++
    "Usage: facade-ide-helper <COMMAND>\n\n" ++
    "Commands:\n" ++
    "  generate  Generate the facade helper file\n" ++
    "  init      Create a facade-helper.yaml config from the template\n" ++
    "  help      Print this message\n"

/-- The line that says which methods may be missing. -/
def omissionText (o : OmittedMethods) : String :=
  "warning: inherited methods omitted from " ++ o.service ++ "; add the directory declaring " ++
    o.missing ++ " to index_paths\n"

/-- Carries out a command on the real disk. -/
def perform (command : Command) : IO UInt32 := do
  let output ← IO.getStdout
  let colours := (← output.isTty) && (← IO.getEnv "NO_COLOR").isNone
  let disk ← loadDisk command
  let response := @command.run Recovery.nothing { colours } disk
  for change in Entry.changes (some disk.top) response.disk.top do
    store change
  for omission in response.omissions do
    IO.eprint (omissionText omission)
  IO.eprint response.stderr
  IO.print response.stdout
  return response.exitCode.toUInt32

end FacadeStubs.Main

/-- The program. -/
def main (args : List String) : IO UInt32 := do
  match FacadeStubs.CommandLine.readArguments args with
  | .ok command => FacadeStubs.Main.perform command
  | .error usage =>
    let text := FacadeStubs.Main.usageText usage
    if usage.exitCode == 0 then IO.print text else IO.eprint text
    return usage.exitCode.toUInt32
