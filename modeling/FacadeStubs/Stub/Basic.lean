import FacadeStubs.Export.Text

/-!
# Stubs

A stub is a class named after a facade. For each method that the facade forwards it has a static
method with the same signature, whose body calls the method on the service.
-/
namespace FacadeStubs

/-- A static method of a stub, in pieces of source text. -/
structure StubMethod where
  name : String
  /-- The parameter list of the signature. -/
  params : String
  /-- The argument list of the forwarded call. -/
  args : String
  /-- One `@param` line for each parameter. -/
  docParams : List String
  returnType : String
  /-- Whether the call gives a value to return. -/
  returnsValue : Bool
  deriving Repr, DecidableEq

/-- A stub class. The empty namespace is the global one; the service class has no leading
backslash. -/
structure StubClass where
  namespaceName : String
  shortName : String
  serviceClass : String
  methods : List StubMethod
  deriving Repr, DecidableEq

/-- The defaults that a stub repeats: those of parameters that may be left out in a call and do not
take what is left. -/
def writtenDefaults : List Param → List Literal
  | [] => []
  | p :: later =>
    (if Method.isHeadOptional (p :: later) && !p.variadic then p.default.toList else []) ++
      writtenDefaults later

namespace StubMethod

/-- The dots in front of a variadic parameter. -/
def spread (p : Param) : String := if p.variadic then "..." else ""

/-- The type of a parameter and the blank after it. -/
def typePart (serviceClass : String) (p : Param) : String :=
  match p.typeHint with
  | some t => t.render (some serviceClass) ++ " "
  | none => ""

/-- The default of a parameter: written only for an optional one that is not variadic. -/
def defaultPart (index : ClassIndex) (optional : Bool) (p : Param) : String :=
  match p.default with
  | some value => if optional && !p.variadic then " = " ++ Export.text index value else ""
  | none => ""

/-- A parameter of the signature. -/
def paramText (serviceClass : String) (index : ClassIndex) (optional : Bool) (p : Param) : String :=
  typePart serviceClass p ++ (if p.byRef then "&" else "") ++ spread p ++ "$" ++ p.name ++
    defaultPart index optional p

/-- An argument of the forwarded call. -/
def argText (p : Param) : String := spread p ++ "$" ++ p.name

/-- The documentation line of a parameter. -/
def docText (serviceClass : String) (p : Param) : String :=
  "@param " ++ typePart serviceClass p ++ spread p ++ "$" ++ p.name

/-- The parameters of the signature, each with what follows it to decide about its default. -/
def paramTexts (serviceClass : String) (index : ClassIndex) : List Param → List String
  | [] => []
  | p :: later =>
    paramText serviceClass index (Method.isHeadOptional (p :: later)) p ::
      paramTexts serviceClass index later

/-- The stub of a method of a service class. A method without a return type may return
anything. -/
def ofMethod (m : Method) (serviceClass : String) (index : ClassIndex) : StubMethod where
  name := m.name
  params := joined ", " (paramTexts serviceClass index m.params)
  args := joined ", " (m.params.map argText)
  docParams := m.params.map (docText serviceClass)
  returnType :=
    match m.returnType with
    | some t => t.render (some serviceClass)
    | none => "mixed"
  returnsValue :=
    match m.returnType with
    | some t => !t.isBottom
    | none => true

end StubMethod

/-- The stub of a facade: the forwardable methods of its service class. -/
def StubClass.build (namespaceName shortName serviceClass : String) (index : ClassIndex) :
    StubClass where
  namespaceName := namespaceName
  shortName := shortName
  serviceClass := serviceClass
  methods := ((index.methodsOf serviceClass).filter Method.isForwardable).map fun m =>
    StubMethod.ofMethod m serviceClass index

/-- Whether every default that the stub for a service class repeats has a text. -/
def StubClass.hasTexts (serviceClass : String) (index : ClassIndex) : Bool :=
  ((index.methodsOf serviceClass).filter Method.isForwardable).all fun m =>
    (writtenDefaults m.params).all fun v => (Export.text? index v).isSome

end FacadeStubs
