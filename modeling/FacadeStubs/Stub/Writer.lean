import FacadeStubs.Stub.Basic

/-!
# The helper file

Stub classes are written one after the other. A namespace block is opened when the namespace of a
class differs from that of the block that is open, and closed before the next one opens; so the
order of the classes decides how many blocks a namespace has.
-/
namespace FacadeStubs

/-- The namespace of the block that is open, if one is. -/
structure StubWriter where
  current : Option String := none
  deriving Repr, DecidableEq

namespace StubWriter

/-- The first lines of a helper file. -/
def opening : String := "<?php\n\n"

/-- The line that opens a block. -/
def blockHeader (namespaceName : String) : String :=
  if namespaceName.isEmpty then "namespace \x7b\n\n"
  else "namespace " ++ namespaceName ++ " \x7b\n\n"

/-- The line that closes a block. -/
def blockEnd : String := "\x7d\n\n"

/-- The lines of a static method. -/
def methodText (serviceClass : String) (m : StubMethod) : String :=
  "        /**\n" ++
  joined "" (m.docParams.map fun line => "         * " ++ line ++ "\n") ++
  "         * @return " ++ m.returnType ++ "\n" ++
  "         */\n" ++
  "        public static function " ++ m.name ++ "(" ++ m.params ++ "): " ++ m.returnType ++ "\n" ++
  "        \x7b\n" ++
  "            /** @var \\" ++ serviceClass ++ " $instance */\n" ++
  "            " ++ (if m.returnsValue then "return " else "") ++
    "$instance->" ++ m.name ++ "(" ++ m.args ++ ");\n" ++
  "        \x7d\n"

/-- The lines of a class inside its block. -/
def classText (c : StubClass) : String :=
  "    class " ++ c.shortName ++ "\n" ++
  "    \x7b\n" ++
  joined "" (c.methods.map (methodText c.serviceClass)) ++
  "    \x7d\n"

/-- The text that closes the block that is open. -/
def closing (w : StubWriter) : String := if w.current.isSome then blockEnd else ""

/-- Writes a class: the text it adds and the writer after it. -/
def write (w : StubWriter) (c : StubClass) : String × StubWriter :=
  if w.current == some c.namespaceName then (classText c, w)
  else (w.closing ++ blockHeader c.namespaceName ++ classText c, ⟨some c.namespaceName⟩)

/-- Writes the classes and closes the last block. -/
def writeAll (w : StubWriter) : List StubClass → String
  | [] => w.closing
  | c :: rest => (w.write c).1 ++ writeAll (w.write c).2 rest

end StubWriter

/-- The text of a helper file. -/
def helperText (classes : List StubClass) : String :=
  StubWriter.opening ++ StubWriter.writeAll {} classes

end FacadeStubs
