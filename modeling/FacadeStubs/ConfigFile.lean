import FacadeStubs.Config
import FacadeStubs.Registry
import FacadeStubs.Yaml.Node

/-!
# Config files

Reads a config from YAML text. Each setting says what it takes: a text takes any scalar as it is
written, a flag only the two words, a list or map also nothing at all. Keys that are no setting are
ignored, and a setting may be given only once.
-/
namespace FacadeStubs

open Yaml (Node Style)

namespace ConfigFile

/-- The node that an alias stands for. -/
def target? (root : Node) : Node → Option Node
  | .aliasOf a => root.withAnchor? a
  | n => some n

/-- Whether a node is an empty plain scalar. -/
def isNothing : Node → Bool
  | .scalar _ text style => text.isEmpty && style == .plain
  | _ => false

/-- The words for null. -/
def isNullWord (text : String) : Bool := ["null", "Null", "NULL", "~"].contains text

/-- A text: the words of any scalar. -/
def text? (root n : Node) : Option String :=
  match target? root n with
  | some (.scalar _ text _) => some text
  | _ => none

/-- A text that may be left out. -/
def optionalText? (root n : Node) : Option (Option String) :=
  match target? root n with
  | some (.scalar ps text style) =>
    if style != .plain then some (some text)
    else
      match ps.tag with
      | some tag =>
        if tag == "tag:yaml.org,2002:null" then if isNullWord text then some none else none
        else some (some text)
      | none => if text.isEmpty || isNullWord text then some none else some (some text)
  | _ => none

/-- A flag: one of two words, not quoted. -/
def flag? (root n : Node) : Option Bool :=
  match target? root n with
  | some (.scalar ps text style) =>
    if style == .plain || (style == .literal && ps.tag == some "tag:yaml.org,2002:bool") then
      if ["true", "True", "TRUE"].contains text then some true
      else if ["false", "False", "FALSE"].contains text then some false
      else none
    else none
  | _ => none

/-- A list of texts. -/
def texts? (root n : Node) : Option (List String) :=
  match target? root n with
  | some (.sequence _ entries) => entries.mapM (text? root)
  | some n' => if isNothing n' then some [] else none
  | none => none

/-- A map of texts; the last value of a key counts. -/
def textMap? (root n : Node) : Option (List (String × String)) :=
  match target? root n with
  | some (.mapping _ entries) =>
    entries.foldlM
      (fun m e => do
        let key ← text? root e.1
        let value ← text? root e.2
        return setKey key value m)
      []
  | some n' => if isNothing n' then some [] else none
  | none => none

/-- The grouping that a word names. -/
def groupingOf? : String → Option Grouping
  | "grouped" => some .grouped
  | "interleaved" => some .interleaved
  | _ => none

/-- A grouping: a word, or the tag of an empty scalar. -/
def grouping? (root n : Node) : Option Grouping :=
  match target? root n with
  | some (.scalar ps text style) =>
    match ps.tag.map String.toList with
    | some ('!' :: word) =>
      if style == .plain && (text.isEmpty || isNullWord text) then groupingOf? (String.ofList word)
      else none
    | _ => groupingOf? text
  | _ => none

/-- Sets what a key names; other keys change nothing. -/
def set? (root : Node) (c : Config) (key : String) (value : Node) : Option Config :=
  match key with
  | "project_dir" => (optionalText? root value).map fun v => { c with projectDir := v }
  | "source_dir" => (text? root value).map fun v => { c with sourceDir := v }
  | "output" => (text? root value).map fun v => { c with output := v }
  | "facade_markers" => (texts? root value).map fun v => { c with markers := v }
  | "services" => (textMap? root value).map fun v => { c with services := v }
  | "parameters" => (textMap? root value).map fun v => { c with parameters := v }
  | "autowire" => (flag? root value).map fun v => { c with autowire := v }
  | "namespace_grouping" => (grouping? root value).map fun v => { c with grouping := v }
  | "atomic_write" => (flag? root value).map fun v => { c with atomicWrite := v }
  | "excluded_paths" => (texts? root value).map fun v => { c with excludedPaths := v }
  | "index_paths" => (texts? root value).map fun v => { c with indexPaths := v }
  | _ => some c

/-- The keys of all settings. -/
def settings : List String :=
  ["project_dir", "source_dir", "output", "facade_markers", "services", "parameters", "autowire",
   "namespace_grouping", "atomic_write", "excluded_paths", "index_paths"]

/-- Reads the pairs of a config; `seen` are the settings made so far. -/
def ofPairs? (root : Node) : Config → List String → List (Node × Node) → Option Config
  | c, _, [] => some c
  | c, seen, (k, v) :: rest => do
    let key ← text? root k
    if settings.contains key && seen.contains key then none
    else
      let c' ← set? root c key v
      ofPairs? root c' (key :: seen) rest

/-- Reads the node of a document. -/
def ofNode? (root : Node) : Option Config :=
  match root with
  | .mapping _ entries => ofPairs? root {} [] entries
  | n => if isNothing n then some {} else none

end ConfigFile

/-- Reads a config from the text of a file; a file without content leaves the defaults. -/
def Config.ofText (text : List Char) : Except Error Config :=
  let config :=
    if text.all isBlank then some {}
    else (Yaml.document? text).bind fun root => (root.map ConfigFile.ofNode?).getD (some {})
  match config with
  | some c => .ok c
  | none => .error .configSyntax

end FacadeStubs
