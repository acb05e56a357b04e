import FacadeStubs.CommandLine.Arguments
import FacadeStubs.CommandLine.Template
import FacadeStubs.ConfigFile
import FacadeStubs.ReportText

/-!
# The program

The two commands as functions of a disk: `generate` writes the helper file of a project, `init`
writes a config file to start from. Each gives what is printed, the exit code and the disk after it.

A report is shown when its helper file is written already. As JSON it cannot be shown if the name of the
helper file is no text; then the command fails although the run has not.
-/
namespace FacadeStubs.CommandLine

/-- What the place where a command is carried out adds to it. -/
structure Console where
  /-- Whether reports are shown in colours. -/
  colours : Bool := false
  /-- Whether a path is the text that it is written as here. A disk may have names that are no text; they
  are written as texts that stand for them. -/
  isText : String → Bool := fun _ => true

/-- What a command leaves. -/
structure Response where
  exitCode : Nat
  stdout : String := ""
  stderr : String := ""
  omissions : List OmittedMethods := []
  /-- The error that ended a run. -/
  failure : Option Error := none
  disk : Disk

/-- The exit code of a command that failed. -/
def errorCode : Nat := 2

/-- A command that failed with a message. -/
def failed (d : Disk) (message : String) : Response :=
  { exitCode := errorCode, stderr := "Error: " ++ message ++ "\n", disk := d }

/-! ## Generating -/

/-- The config file of a project: the one that is given, or the first of the default names. -/
def configPath? (d : Disk) (root : String) (given : Option String) : Option String :=
  given.or ((Config.fileNames.map (Path.join root)).find? d.isFile)

/-- Reads a config file. -/
def readConfig (d : Disk) (path : String) : Except Error Config := do
  let text ← (d.readText path).mapError .io
  Config.ofText text

/-- The config of a project, or the message of its file's error. -/
def loadConfig (d : Disk) (root : String) (given : Option String) : Except String Config :=
  match configPath? d root given with
  | none => .ok {}
  | some path =>
    (readConfig d path).mapError fun e => "parsing config " ++ path ++ ": " ++ e.message

/-- A config with the settings of the command line. A project directory in the file counts only if
the command line names none. -/
def withArgs (c : Config) (root : String) (args : GenerateArgs) : Config :=
  { c with
    projectDir := some (match args.projectDir, c.projectDir with
      | none, some dir => Path.join root dir
      | _, _ => root)
    output := args.output.getD c.output
    grouping := if args.interleave then .interleaved else c.grouping }

/-- A report as it is shown. JSON has no form for a path that is no text. -/
def shown? (console : Console) (args : GenerateArgs) (report : Report) : Option String :=
  if args.format == "json" then
    if console.isText report.output then some (report.json ++ "\n") else none
  else some (report.lines console.colours args.verbose)

/-- Runs with a config. -/
def generateWith [Recovery] (console : Console) (d : Disk) (args : GenerateArgs) (c : Config) :
    Response :=
  let outcome := Generation.run c (Registry.ofConfig c) d
  match outcome.result with
  | .error e =>
    { failed outcome.disk e.message with omissions := outcome.omissions, failure := some e }
  | .ok report =>
    match shown? console args report with
    | none =>
      { failed outcome.disk "path contains invalid UTF-8 characters" with
        omissions := outcome.omissions }
    | some text =>
      { exitCode := 0, stdout := text, omissions := outcome.omissions, disk := outcome.disk }

/-- The command `generate`. -/
def generate [Recovery] (console : Console) (d : Disk) (args : GenerateArgs) : Response :=
  if args.format != "pretty" && args.format != "json" then
    failed d ("invalid format " ++ Quoted.quote args.format ++ ", must be 'pretty' or 'json'")
  else
    let requested := args.projectDir.getD "."
    match d.canonical requested with
    | .error e =>
      failed d
        ("cannot access project directory " ++ Quoted.quotePath requested ++ ": " ++ e.message)
    | .ok root =>
      match loadConfig d root args.config with
      | .error message => failed d message
      | .ok loaded =>
        let c := withArgs loaded root args
        match c.fault? with
        | some cause => failed d (Error.message (.invalidConfig cause))
        | none => generateWith console d args c

/-! ## Starting -/

/-- The lines that follow a new config file. -/
def nextSteps (output : String) : String :=
  let isDefault := (Path.fileName? output).any Config.fileNames.contains
  "Created " ++ output ++ "\n\nNext steps:\n" ++
  "  1. Map your facade accessors to service classes under `services:`\n" ++
  "  2. Run: facade-ide-helper generate\n" ++
  (if isDefault then ""
   else "     (pass --config " ++ output ++ " since it is not a default config name)\n")

/-- The command `init`. A file that is there stays as it is. -/
def init (d : Disk) (output : String) : Response :=
  if d.contains output then
    failed d ("file already exists: " ++ output ++
      "\nRemove it or use --output to specify a different path")
  else
    match (FileAction.createDirectories (Route.ofPath output).parent).run.run d with
    | (.error e, d') => failed d' ("failed to create directory: " ++ e.message)
    | (.ok _, d') =>
      match (FileAction.write output (Utf8.bytesOf template)).run.run d' with
      | (.error e, d'') => failed d'' ("failed to write config: " ++ e.message)
      | (.ok _, d'') => { exitCode := 0, stdout := nextSteps output, disk := d'' }

/-- Carries out a command. -/
def Command.run [Recovery] (console : Console) (d : Disk) : Command → Response
  | .generate args => CommandLine.generate console d args
  | .init output => CommandLine.init d output

end FacadeStubs.CommandLine
