import FacadeStubs.Text.Segments

/-!
# Template of a config file

The config file that a new project starts with: all settings at their defaults, each with a comment.
-/
namespace FacadeStubs.CommandLine

/-- The lines of the template. -/
def templateLines : List String :=
  ["# facade-ide-helper configuration",
   "#",
   "# Every key is optional. Paths are relative to the project root.",
   "",
   "# Directory scanned for facade classes.",
   "source_dir: src",
   "",
   "# Generated helper file.",
   "output: _ide-helper.php",
   "",
   "# Base classes or interfaces that mark a class as a facade.",
   "facade_markers:",
   "  - Flawlol\\Facade\\Abstract\\Facade",
   "",
   "# Service id returned by getFacadeAccessor() -> service class.",
   "services: \x7b\x7d",
   "#  mailer: App\\Service\\Mailer",
   "",
   "# Container parameters. kernel.project_dir is always set.",
   "parameters: \x7b\x7d",
   "",
   "# Resolve an accessor that is itself a class name to that class.",
   "autowire: true",
   "",
   "# grouped: one namespace block per namespace.",
   "# interleaved: reopen a block whenever the namespace changes.",
   "namespace_grouping: grouped",
   "",
   "# Write to a temporary file and rename it into place.",
   "atomic_write: true",
   "",
   "# Glob patterns (relative to source_dir) left out of the scan.",
   "excluded_paths: []",
   "#  - \"**/Tests/**\"",
   "",
   "# Extra directories parsed for class information only, e.g. vendor code",
   "# defining service classes.",
   "index_paths: []",
   "#  - vendor/acme/mailer/src"]

/-- The text of the template. -/
def template : String := joined "" (templateLines.map (· ++ "\n"))

end FacadeStubs.CommandLine
