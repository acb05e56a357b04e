import FacadeStubs.ClassIndex
import FacadeStubs.Config

/-!
# Service registry

Which class stands behind a service key, and the parameters of the container. A registry holds what
the config says; `Registry.wiredService?` adds that a key which names a concrete class of the index
stands for that class.
-/
namespace FacadeStubs

/-- Sets the value of a key, in a list with ascending keys. -/
def setKey (key value : String) : List (String × String) → List (String × String)
  | [] => [(key, value)]
  | (k, v) :: rest =>
    if key == k then (key, value) :: rest
    else if key < k then (key, value) :: (k, v) :: rest
    else (k, v) :: setKey key value rest

/-- Services and parameters by key. -/
structure Registry where
  services : List (String × String) := []
  parameters : List (String × String) := []
  deriving Repr, DecidableEq, Inhabited

namespace Registry

/-- The parameter that holds the project directory. -/
def projectDirKey : String := "kernel.project_dir"

/-- Maps a key to a class, whose name may have leading backslashes. -/
def addService (r : Registry) (id cls : String) : Registry :=
  { r with services := setKey id (withoutRoot cls) r.services }

def setParameter (r : Registry) (name value : String) : Registry :=
  { r with parameters := setKey name value r.parameters }

/-- The registry of a config. The project directory is always a parameter. -/
def ofConfig (c : Config) : Registry :=
  let withServices := c.services.foldl (fun r s => r.addService s.1 s.2) ({} : Registry)
  let withParameters := c.parameters.foldl (fun r p => r.setParameter p.1 p.2) withServices
  withParameters.setParameter projectDirKey c.directory

/-- Whether a key has a class. -/
def has (r : Registry) (id : String) : Bool := r.services.any fun service => service.1 == id

/-- The class behind a key. -/
def service? (r : Registry) (id : String) : Option String := r.services.lookup id

def parameter? (r : Registry) (name : String) : Option String := r.parameters.lookup name

/-- The concrete class of the index that a key names. -/
def autowired? (index : ClassIndex) (id : String) : Option String :=
  ((index.get? id).filter ClassDecl.isInstantiable).map ClassDecl.fqn

/-- Whether a key has a class or names one. -/
def wiredHas (r : Registry) (index : ClassIndex) (id : String) : Bool :=
  r.has id || (autowired? index id).isSome

/-- The class behind a key, or else the class that the key names. -/
def wiredService? (r : Registry) (index : ClassIndex) (id : String) : Option String :=
  (r.service? id).or (autowired? index id)

end Registry

end FacadeStubs
