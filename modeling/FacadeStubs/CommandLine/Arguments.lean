import FacadeStubs.Text.Segments

/-!
# Arguments of the command line

Reads the arguments of a command. Options may be short or long, short ones may share a dash, and a
value may follow its option or be attached to it. A value that follows an option is taken up when
the next option is read or the arguments end; so an argument that is not known is reported before a
bad value in front of it.
-/
namespace FacadeStubs.CommandLine

/-- Why arguments are not carried out. -/
inductive Usage where
  /-- Nothing is asked for. -/
  | noCommand
  | unknownCommand
  | unknownArgument
  | badValue
  | repeatedOption
  | unneededValue
  | help
  | version
  deriving Repr, DecidableEq

/-- The status that a program ends with. -/
def Usage.exitCode : Usage → Nat
  | help | version => 0
  | _ => 2

/-- What an option takes. -/
inductive Taking where
  | nothing
  /-- Any text. -/
  | text
  /-- A text that is not empty. -/
  | path
  deriving Repr, DecidableEq

/-- The options of the commands. -/
inductive OptionName where
  | projectDir
  | config
  | output
  | format
  | interleave
  | verbose
  | help
  deriving Repr, DecidableEq

/-- An option as it is written. -/
structure OptionForm where
  name : OptionName
  long : String
  short : Option Char
  taking : Taking

/-- The options of `generate`. -/
def generateOptions : List OptionForm :=
  [⟨.projectDir, "project-dir", some 'p', .path⟩, ⟨.config, "config", some 'c', .path⟩,
   ⟨.output, "output", some 'o', .path⟩, ⟨.format, "format", some 'f', .text⟩,
   ⟨.interleave, "interleave", none, .nothing⟩, ⟨.verbose, "verbose", some 'v', .nothing⟩,
   ⟨.help, "help", some 'h', .nothing⟩]

/-- The options of `init`. -/
def initOptions : List OptionForm :=
  [⟨.output, "output", some 'o', .path⟩, ⟨.help, "help", some 'h', .nothing⟩]

/-- Options with their values; a flag has the empty one. -/
abbrev Given := List (OptionName × String)

/-- An option whose value follows it. -/
structure Pending where
  form : OptionForm
  value : Option String

/-- The options read so far. -/
structure Reading where
  given : Given := []
  pending : Option Pending := none

namespace Reading

/-- Takes up an option. -/
def accept (r : Reading) (form : OptionForm) (value : String) : Except Usage Reading :=
  if form.name == .help then .error .help
  else if (r.given.lookup form.name).isSome then .error .repeatedOption
  else if form.taking == .path && value.isEmpty then .error .badValue
  else .ok { r with given := (form.name, value) :: r.given }

/-- Takes up the option that is pending. -/
def settle (r : Reading) : Except Usage Reading :=
  match r.pending with
  | none => .ok r
  | some p =>
    match p.value with
    | none => .error .badValue
    | some value => accept { r with pending := none } p.form value

/-- An option with the value attached to it, if there is one. -/
def option (r : Reading) (form : OptionForm) (attached : Option String) : Except Usage Reading := do
  let r ← r.settle
  match form.taking, attached with
  | .nothing, _ => r.accept form ""
  | _, some value => r.accept form value
  | _, none => return { r with pending := some ⟨form, none⟩ }

end Reading

/-- What stands in front of and behind the first equals sign. -/
def attachedValue (text : List Char) : String × Option String :=
  match cutAt? '=' text with
  | some (name, value) => (String.ofList name, some (String.ofList value))
  | none => (String.ofList text, none)

/-- Reads a long option from behind its dashes. -/
def readLong (forms : List OptionForm) (r : Reading) (text : List Char) : Except Usage Reading :=
  let (name, value) := attachedValue text
  match forms.find? fun f => f.long == name with
  | none => .error .unknownArgument
  | some form =>
    if form.taking == .nothing && value.isSome then .error .unneededValue
    else r.option form value

/-- Reads short options from behind their dash. What stands behind an option that takes a value is
its value, with or without an equals sign between. -/
def readShort (forms : List OptionForm) (r : Reading) : List Char → Except Usage Reading
  | [] => .ok r
  | c :: rest =>
    match forms.find? fun f => f.short == some c with
    | none => .error .unknownArgument
    | some form =>
      if form.taking == .nothing then do readShort forms (← r.option form none) rest
      else
        match rest with
        | [] => r.option form none
        | '=' :: value => r.option form (some (String.ofList value))
        | value => r.option form (some (String.ofList value))

/-- Reads the options of a command. Behind two dashes nothing may follow. -/
def readOptions (forms : List OptionForm) (r : Reading) : List String → Except Usage Given
  | [] => r.settle.map (·.given)
  | arg :: rest =>
    match arg.toList with
    | ['-', '-'] => if rest.isEmpty then r.settle.map (·.given) else .error .unknownArgument
    | '-' :: '-' :: text =>
      match readLong forms r text with
      | .ok r' => readOptions forms r' rest
      | .error e => .error e
    | '-' :: c :: text =>
      match readShort forms r (c :: text) with
      | .ok r' => readOptions forms r' rest
      | .error e => .error e
    | _ =>
      match r.pending with
      | some ⟨form, none⟩ => readOptions forms { r with pending := some ⟨form, some arg⟩ } rest
      | _ => .error .unknownArgument

/-! ## Commands -/

/-- The settings of `generate`. -/
structure GenerateArgs where
  projectDir : Option String := none
  config : Option String := none
  output : Option String := none
  format : String := "pretty"
  interleave : Bool := false
  verbose : Bool := false
  deriving Repr, DecidableEq

/-- A command. -/
inductive Command where
  | generate (args : GenerateArgs)
  | init (output : String)
  deriving Repr, DecidableEq

/-- The names of commands. -/
inductive CommandName where
  | generate
  | init
  | help
  deriving Repr, DecidableEq

/-- The command of a name. -/
def commandName? : String → Option CommandName
  | "generate" | "app:generate-facade-helpers" => some .generate
  | "init" => some .init
  | "help" => some .help
  | _ => none

/-- The settings of `generate` by its options. -/
def generateArgs (given : Given) : GenerateArgs where
  projectDir := given.lookup .projectDir
  config := given.lookup .config
  output := given.lookup .output
  format := (given.lookup .format).getD "pretty"
  interleave := (given.lookup .interleave).isSome
  verbose := (given.lookup .verbose).isSome

/-- The short options in front of a command: help and version. -/
def readTopShort : List Char → Usage
  | 'h' :: _ => .help
  | 'V' :: _ => .version
  | _ => .unknownArgument

/-- A long option in front of a command. -/
def readTopLong (text : List Char) : Usage :=
  let (name, value) := attachedValue text
  let found := if name == "help" then some Usage.help
    else if name == "version" then some .version
    else none
  match found with
  | none => .unknownArgument
  | some usage => if value.isSome then .unneededValue else usage

/-- Help on a command, which has none below it. -/
def readHelp : List String → Usage
  | [] => .help
  | [name] => if (commandName? name).isSome then .help else .unknownCommand
  | _ => .unknownCommand

/-- Reads the arguments of the program. -/
def readArguments : List String → Except Usage Command
  | [] => .error .noCommand
  | arg :: rest =>
    match commandName? arg with
    | some .generate =>
      (readOptions generateOptions {} rest).map fun g => .generate (generateArgs g)
    | some .init =>
      (readOptions initOptions {} rest).map fun g =>
        .init ((g.lookup .output).getD "facade-helper.yaml")
    | some .help => .error (readHelp rest)
    | none =>
      match arg.toList with
      | ['-', '-'] =>
        match rest with
        | [] => .error .noCommand
        | name :: _ =>
          .error (if (commandName? name).isSome then .unknownArgument else .unknownCommand)
      | '-' :: '-' :: text => .error (readTopLong text)
      | '-' :: c :: text => .error (readTopShort (c :: text))
      | _ => .error .unknownCommand

end FacadeStubs.CommandLine
