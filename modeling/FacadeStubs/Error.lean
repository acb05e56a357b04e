import FacadeStubs.FileTree.Disk
import FacadeStubs.Glob.Pattern
import FacadeStubs.Text.Quoted

/-!
# Errors

The causes that end a run, and the wording of each.
-/
namespace FacadeStubs

/-- What can be wrong with a config that is well-formed. -/
inductive ConfigFault where
  | noMarker
  | noOutput
  | badPattern (pattern : String) (cause : Glob.Fault)
  | noServiceClass (id : String)
  deriving Repr, DecidableEq

/-- What is wrong, in words. -/
def ConfigFault.message : ConfigFault → String
  | noMarker => "facade_markers must name at least one class or interface"
  | noOutput => "output must not be empty"
  | badPattern pattern cause =>
    "invalid excluded_paths pattern " ++ Quoted.quote pattern ++ ": error parsing glob '" ++
      pattern ++ "': " ++ cause.message
  | noServiceClass id => "service " ++ Quoted.quote id ++ " has no class"

/-- Why a run ended without a result. -/
inductive Error where
  | io (cause : FileError)
  /-- The text of a config is not in its format. -/
  | configSyntax
  | invalidConfig (cause : ConfigFault)
  | walk (path : String) (cause : FileError)
  | serviceNotFound (id : String)
  | serviceClassUnknown (id cls : String)
  | accessorUnresolved (facade : String)
  | persist (path : String) (cause : FileError)
  /-- The text of an import declaration has its braces crossed. -/
  | crossedBraces
  /-- A default of a method of the service goes round in circles and has no text. -/
  | endlessDefault (service : String)
  deriving Repr, DecidableEq

/-- The wording of an error. -/
def Error.message : Error → String
  | io cause => "I/O error: " ++ cause.message
  | configSyntax => "config error"
  | invalidConfig cause => "invalid config: " ++ cause.message
  | walk path cause =>
    "walking source tree: IO error for operation on " ++ path ++ ": " ++ cause.message
  | serviceNotFound id => "service " ++ Quoted.quote id ++ " not found in the container"
  | serviceClassUnknown id cls =>
    "service " ++ Quoted.quote id ++ " maps to class " ++ cls ++
      " which is not in the scanned sources"
  | accessorUnresolved facade =>
    "facade " ++ facade ++ " has no statically resolvable getFacadeAccessor()"
  | persist path cause => "writing " ++ path ++ ": " ++ cause.message
  | crossedBraces => "an import declaration has its braces crossed"
  | endlessDefault service => "a default of a method of " ++ service ++ " goes round in circles"

end FacadeStubs
