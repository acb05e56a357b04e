import FacadeStubs.Php.Expression

/-!
# Statements

Statements by the word that begins them. A statement's node keeps the statements and expressions
inside it; only namespaces, imports, declarations and returns have kinds of their own.

The words that end a block behind a colon are words of the language only there; elsewhere they are
names. The same holds for `else`: where the condition in front of it cannot take it, it is a name.
-/
namespace FacadeStubs.Php

open Lexical Reader

/-! ## Bodies -/

/-- Statements up to one of the words that end them. -/
def statementsUntil (g : Grammar) (closers : List String) : Reader (List Node) :=
  many do
    require !(closers.contains (← nextWord))
    g.statement

/-- The words that end statements behind a colon. -/
def colonClosers : List String := ["elseif", "else", "endif", "endwhile", "endforeach"]

/-- A colon, statements, a word that ends them, and the end of the whole. -/
def colonBody (g : Grammar) (closers : List String) (ending : String) : Reader (List Node) := do
  symbol ":"
  let statements ← statementsUntil g closers
  keyword ending
  semicolon
  return statements

/-- The body of a loop: nothing, one statement, or statements between a colon and an ending word. -/
def loopBody (g : Grammar) (closers : List String) (ending : String) : Reader (List Node) := do
  match ← maybe semicolon with
  | some _ => return []
  | none => if ← nextIs ":" then colonBody g closers ending else return [← g.statement]

/-! ## Conditions -/

/-- The alternatives of a condition whose bodies are statements. -/
def plainAlternatives (g : Grammar) : Nat → Reader (List Node)
  | 0 => return []
  | fuel + 1 => do
    match ← nextWord with
    | "elseif" =>
      let other ← maybe do
        keyword "elseif"
        let condition ← parenthesized g
        return [condition, ← g.statement]
      match other with
      | some nodes => return nodes ++ (← plainAlternatives g fuel)
      | none => return []
    | "else" => maybeNode (keyword "else" *> g.statement)
    | _ => return []

/-- The alternatives of a condition whose bodies stand behind colons. -/
def colonAlternatives (g : Grammar) : Nat → Reader (List Node)
  | 0 => return []
  | fuel + 1 => do
    match ← nextWord with
    | "elseif" =>
      keyword "elseif"
      let condition ← parenthesized g
      symbol ":"
      let statements ← statementsUntil g colonClosers
      return condition :: statements ++ (← colonAlternatives g fuel)
    | "else" =>
      keyword "else"
      symbol ":"
      statementsUntil g colonClosers
    | _ => return []

/-- A condition with its alternatives. -/
def ifStatement (g : Grammar) : Reader (List Node) := do
  keyword "if"
  let condition ← parenthesized g
  if ← nextIs ":" then
    symbol ":"
    let statements ← statementsUntil g colonClosers
    let others ← colonAlternatives g (← turns)
    keyword "endif"
    semicolon
    return condition :: statements ++ others
  else
    let statement ← g.statement
    return condition :: statement :: (← plainAlternatives g (← turns))

/-! ## Loops -/

/-- Expressions in the head of a loop, which may be missing. -/
def loopPart (g : Grammar) (closing : String) : Reader (List Node) := do
  if ← nextIs closing then return [] else commaList1 (g.expression Strength.any)

/-- A loop with a start, a condition and a step. -/
def forStatement (g : Grammar) : Reader (List Node) := do
  keyword "for"
  let head ← between "(" ")" do
    let start ← loopPart g ";"
    symbol ";"
    let condition ← loopPart g ";"
    symbol ";"
    return start ++ condition ++ (← loopPart g ")")
  return head ++ (← loopBody g ["endfor"] "endfor")

/-- A loop over the elements of a value. -/
def foreachStatement (g : Grammar) : Reader (List Node) := do
  keyword "foreach"
  let head ← between "(" ")" do
    let subject ← g.expression Strength.any
    keyword "as"
    let first ← target
    if ← nextIs "=>" then
      require (first.kind != .byReference)
      symbol "=>"
      return [subject, first, ← target]
    else return [subject, first]
  return head ++ (← loopBody g colonClosers "endforeach")
where
  target : Reader Node := do
    if ← nextIs "&" then byReference g else g.expression Strength.any <|> listPattern g

/-! ## Choices and handlers -/

/-- The cases of a choice, up to the sign or word that ends it. -/
def switchCases (g : Grammar) : Reader (List Node) := do
  let cases ← many do
    let condition ← if (← nextWord) == "default" then do
        keyword "default"
        pure []
      else do
        keyword "case"
        pure [← g.expression Strength.any]
    symbol ":" <|> symbol ";"
    return condition ++ (← statementsUntil g ["case", "default", "endswitch"])
  return cases.flatten

/-- A choice by the value of an expression. -/
def switchStatement (g : Grammar) : Reader (List Node) := do
  keyword "switch"
  let subject ← parenthesized g
  if ← nextIs ":" then
    symbol ":"
    let cases ← switchCases g
    keyword "endswitch"
    semicolon
    return subject :: cases
  else return subject :: (← between "\x7b" "\x7d" (switchCases g))

/-- The exceptions that a handler is for, and a variable for them or none. -/
def caught : Reader Unit := do
  let _ ← anyName
  let _ ← many (symbol "|" *> anyName)
  if ← nextIs "$" then
    let _ ← dollarName

/-- The handlers of a block, one behind the other. -/
def handlers (g : Grammar) : Nat → Reader (List Node)
  | 0 => failure
  | fuel + 1 => do
    match ← nextWord with
    | "finally" =>
      keyword "finally"
      let b ← block g
      return b :: (← handlers g fuel)
    | "catch" =>
      keyword "catch"
      between "(" ")" caught
      let b ← block g
      return b :: (← handlers g fuel)
    | _ => return []

/-- A block with handlers of exceptions. -/
def tryStatement (g : Grammar) : Reader (List Node) := do
  keyword "try"
  let first ← block g
  let others ← handlers g (← turns)
  require !others.isEmpty
  return first :: others

/-! ## Directives -/

/-- A number, a string, a truth value or null. -/
def literal (g : Grammar) : Reader Node := do
  let bytes ← ahead
  if atNumber bytes then number
  else if atString bytes then anyString g
  else if wordAt bytes == "null" then leaf .nullLiteral (keyword "null")
  else
    require (["true", "false"].contains (wordAt bytes))
    leaf .booleanLiteral (keyword (wordAt bytes))

/-- A directive to the compiler, with a body or none. -/
def declareStatement (g : Grammar) : Reader (List Node) := do
  keyword "declare"
  let value ← between "(" ")" do
    require (["ticks", "encoding", "strict_types"].contains (exactWordAt (← ahead)))
    let _ ← identifier
    symbol "="
    literal g
  return value :: (← loopBody g ["enddeclare"] "enddeclare")

/-! ## Simple statements -/

/-- A word, an expression that may be missing, and the end of the statement. -/
def wordStatement (g : Grammar) (word : String) : Reader (List Node) := do
  keyword word
  match ← maybe semicolon with
  | some _ => return []
  | none =>
    let e ← last (g.expression Strength.any)
    semicolon
    return [e]

/-- A word, a list, and the end of the statement. -/
def listStatement {α : Type} (word : String) (entry : Reader α) : Reader (List α) := do
  keyword word
  let entries ← last (commaList1 entry)
  semicolon
  return entries

/-- An expression that stands as a statement. -/
def expressionStatement (g : Grammar) : Reader Node := do
  openGap
  let start ← position
  let e ← last (g.expression Strength.any)
  semicolon
  nodeFrom .statement start [e]

/-- The end of the program, with a value in parentheses or none. -/
def exitStatement (g : Grammar) : Reader (List Node) := do
  keyword "exit"
  let e ← last do
    if ← thenIs "(" then
      between "(" ")" do
        if ← nextIs ")" then return [] else return [← g.expression Strength.any]
    else return []
  semicolon
  return e

/-- The end of variables. -/
def unsetStatement (g : Grammar) : Reader (List Node) := do
  keyword "unset"
  let places ← between "(" ")" (openList1 g.place)
  semicolon
  return places

/-- Variables that outlive the call of their function. -/
def staticVariables (g : Grammar) : Reader (List Node) := do
  let entries ← listStatement "static" do
    let name ← dollarName
    return name :: (← defaultValue g)
  return entries.flatten

/-- A function with a name, behind its attributes. -/
def functionStatement (g : Grammar) (start : Nat) (attrs : List Node) : Reader Node := do
  keyword "function"
  let _ ← maybe (symbol "&")
  let _ ← identifier
  let ps ← parameters g
  let type ← returnType
  let code ← block g
  nodeFrom .statement start (attrs ++ [ps] ++ type ++ [code])

/-! ## Namespaces and imports -/

/-- The name of a namespace. -/
def namespaceName : Reader Node := do
  let n ← path
  return .mk .namespaceName n.start n.stop []

/-- A namespace: up to the next one, or around statements in braces. -/
def namespaceStatement (g : Grammar) : Reader Node :=
  nodeOf .namespaceDefinition do
    keyword "namespace"
    last do
      let name ← if ← nextIs "\x7b" then pure [] else (fun n => [n]) <$> namespaceName
      if ← thenIs "\x7b" then return name ++ [← block g]
      else
        require !name.isEmpty
        semicolon
        return name

/-- An imported name, which may get another one. -/
def importedName (name : Reader Node) : Reader Unit := do
  let _ ← name
  if ← thenWord "as" then
    keyword "as"
    let _ ← identifier

/-- The word in front of imported functions or constants. -/
def importWord : Reader Unit := do
  let word ← nextWord
  if word == "function" || word == "const" then keyword word

/-- The common front of names imported in a group, with the backslash behind it. -/
def groupFront : Reader Unit := do
  let _ ← maybe (symbol "\\")
  require ((← nextWord) != "namespace")
  let _ ← identifier
  let _ ← many segment
  symbol "\\"

/-- An import of names, one by one or in a group. -/
def useStatement : Reader Node :=
  nodeOf .namespaceUse do
    keyword "use"
    importWord
    last do
      match ← maybe (groupFront *> symbol "\x7b") with
      | some _ =>
        let _ ← inner (commaList1 (importWord *> importedName path))
        symbol "\x7d"
      | none =>
        let _ ← commaList1 (importedName anyName)
      semicolon
    return []

/-! ## Dispatch -/

/-- Whether the name of a function comes next, behind the sign of a reference or none. -/
def atFunctionName (bytes : Bytes) : Bool :=
  let here := if beginsWith "&" bytes then bytes.drop 1 else bytes
  nameLength (here.drop (gaps here)) != 0

/-- The words that begin a declaration. -/
def declarationWords : List String :=
  ["class", "interface", "trait", "enum", "const", "abstract", "final", "readonly", "var", "public",
   "protected", "private"]

/-- Whether the bytes behind the word `static` make it a modifier. -/
def staticModifies (bytes : Bytes) : Bool :=
  let word := wordAt bytes
  word == "class" || word == "const" || isModifier word

/-- The declaration or function behind attributes, or an expression that begins with them. -/
def attributedStatement (g : Grammar) : Reader Node :=
  declared <|> expressionStatement g
where
  declared : Reader Node := do
    openGap
    let start ← position
    let attrs ← attributes g
    let bytes ← ahead
    let rest := bytes.drop (nameLength bytes)
    let next := rest.drop (gaps rest)
    let word := wordAt bytes
    if word == "function" && atFunctionName next then functionStatement g start [attrs]
    else
      require (declarationWords.contains word || (word == "static" && staticModifies next))
      declarationFrom g start [attrs]

/-- The words that begin an operand and cannot be labels. -/
def operandWords : List String :=
  operandOnlyWords ++ ["throw", "fn", "match", "null", "true", "false", "array"]

/-- Whether a label comes next: a name that begins no operand of its own, and a colon. -/
def atLabel (bytes : Bytes) : Bool :=
  let rest := bytes.drop (nameLength bytes)
  atSingleColon (rest.drop (gaps rest)) && !operandWords.contains (wordAt bytes) &&
    !isRelativeScope bytes

/-- A statement that a word begins, or a label. -/
def statementAt (g : Grammar) (start : Nat) (bytes : Bytes) : Reader Node :=
  let plain := nodeOf .statement
  let word := wordAt bytes
  let rest := bytes.drop (nameLength bytes)
  let next := rest.drop (gaps rest)
  match word with
  | "if" => plain (ifStatement g)
  | "while" => plain do
    keyword word
    let condition ← parenthesized g
    return condition :: (← loopBody g colonClosers "endwhile")
  | "do" => plain do
    keyword word
    let statement ← g.statement
    keyword "while"
    let condition ← parenthesized g
    semicolon
    return [statement, condition]
  | "for" => plain (forStatement g)
  | "foreach" => plain (foreachStatement g)
  | "switch" => plain (switchStatement g)
  | "try" => plain (tryStatement g)
  | "declare" => plain (declareStatement g)
  | "echo" => plain (listStatement word (g.expression Strength.any))
  | "return" => nodeOf .returnStatement (wordStatement g word)
  | "break" | "continue" => plain (wordStatement g word)
  | "goto" => plain do
    keyword word
    let _ ← identifier
    semicolon
    return []
  | "global" => plain (listStatement word (simpleVariable g))
  | "exit" => plain (exitStatement g)
  | "use" => useStatement
  | "namespace" => namespaceStatement g <|> expressionStatement g
  | "function" =>
    if atFunctionName next then functionStatement g start [] else expressionStatement g
  | "static" =>
    if beginsWith "$" next then plain (staticVariables g)
    else if staticModifies next then declarationFrom g start []
    else expressionStatement g
  | _ =>
    if declarationWords.contains word then declarationFrom g start []
    else if atLabel bytes then
      plain do
        let _ ← identifier
        symbol ":"
        return []
    else expressionStatement g

/-- A statement. -/
def statementWith (g : Grammar) : Reader Node :=
  inner do
    openGap
    let bytes ← remaining
    let start ← position
    if beginsWith "\x7b" bytes then block g
    else if beginsWith ";" bytes then leaf .statement (advance 1)
    else if beginsWith "#[" bytes then attributedStatement g
    else if exactWordAt bytes == "unset" then nodeOf .statement (unsetStatement g)
    else if nameLength bytes != 0 && !atNumber bytes then statementAt g start bytes
    else
      require !bytes.isEmpty
      expressionStatement g

end FacadeStubs.Php
