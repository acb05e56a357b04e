import FacadeStubs.Generation

/-!
# Reports as text

The two forms in which the result of a run is shown: lines for a reader, with or without colours,
and JSON for a program.
-/
namespace FacadeStubs

/-! ## Colours -/

/-- The colours of a report. -/
inductive Colour where
  | green
  | cyan
  | dim
  deriving Repr, DecidableEq

/-- The sequence that turns a colour on. -/
def Colour.on : Colour → String
  | green => "\x1b[32m"
  | cyan => "\x1b[36m"
  | dim => "\x1b[2m"

/-- The sequence that turns colours off. -/
def colourOff : String := "\x1b[0m"

/-- A text in which the colour is turned on again wherever it was turned off. -/
def recoloured (on : List Char) : List Char → List Char
  | '\x1b' :: '[' :: '0' :: 'm' :: rest => '\x1b' :: '[' :: '0' :: 'm' :: (on ++ recoloured on rest)
  | c :: rest => c :: recoloured on rest
  | [] => []

/-- A text in a colour, if colours are shown. -/
def paint (colours : Bool) (c : Colour) (text : String) : String :=
  if colours then c.on ++ String.ofList (recoloured c.on.toList text.toList) ++ colourOff else text

/-! ## Lines -/

/-- The line of a facade. -/
def FacadeSummary.line (colours : Bool) (f : FacadeSummary) : String :=
  let count := if f.methods == 1 then "1 method" else Decimal.natText f.methods ++ " methods"
  "  " ++ paint colours .cyan f.cls ++ " " ++ paint colours .dim "->" ++ " " ++ f.service ++ " " ++
    paint colours .dim ("(" ++ f.accessor ++ ", " ++ count ++ ")") ++ "\n"

/-- The lines of a report: that the run succeeded, and what it did if details are asked for. -/
def Report.lines (colours details : Bool) (r : Report) : String :=
  let success := paint colours .green "Facade helpers file generated successfully!" ++ "\n"
  if details then
    success ++ "\n" ++
    "  " ++ paint colours .dim "Output:  " ++ r.output ++ "\n" ++
    "  " ++ paint colours .dim "Scanned: " ++ Decimal.natText r.filesScanned ++ " files, " ++
      Decimal.natText r.candidates ++ " candidates, " ++
      Decimal.natText r.facades.length ++ " facades\n" ++
    (if r.facades.isEmpty then "" else "\n" ++ joined "" (r.facades.map (·.line colours))) ++ "\n"
  else success

/-! ## JSON -/

/-- A character inside a JSON string. -/
def jsonChar (c : Char) : List Char :=
  match c with
  | '"' => ['\\', '"']
  | '\\' => ['\\', '\\']
  | '\x08' => ['\\', 'b']
  | '\x0c' => ['\\', 'f']
  | '\n' => ['\\', 'n']
  | '\r' => ['\\', 'r']
  | '\t' => ['\\', 't']
  | _ =>
    if c.toNat < 32 then
      let digits := Nat.toDigits 16 c.toNat
      ['\\', 'u'] ++ List.replicate (4 - digits.length) '0' ++ digits
    else [c]

/-- A JSON string. -/
def jsonString (s : String) : String :=
  "\"" ++ String.ofList (s.toList.flatMap jsonChar) ++ "\""

/-- A JSON object over several lines, indented by `indent`. -/
def jsonObject (indent : String) (fields : List (String × String)) : String :=
  "\x7b\n" ++
  joined ",\n" (fields.map fun f => indent ++ "  " ++ jsonString f.1 ++ ": " ++ f.2) ++
  "\n" ++ indent ++ "\x7d"

/-- A facade as JSON. -/
def FacadeSummary.json (indent : String) (f : FacadeSummary) : String :=
  jsonObject indent
    [("class", jsonString f.cls), ("accessor", jsonString f.accessor),
     ("service", jsonString f.service), ("methods", Decimal.natText f.methods)]

/-- A report as JSON. -/
def Report.json (r : Report) : String :=
  let facades :=
    if r.facades.isEmpty then "[]"
    else
      "[\n" ++ joined ",\n" (r.facades.map fun f => "    " ++ f.json "    ") ++ "\n  ]"
  jsonObject ""
    [("output", jsonString r.output), ("files_scanned", Decimal.natText r.filesScanned),
     ("candidates", Decimal.natText r.candidates), ("facades", facades)]

end FacadeStubs
