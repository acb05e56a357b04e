import FacadeStubs.Yaml.Token

/-!
# Documents of YAML

Tokens make up one document at most, and a document is one node: a scalar, a sequence, a mapping, or
an alias for another node of the document.
-/
namespace FacadeStubs.Yaml

/-- The tag of a node and the number of its anchor. -/
structure Properties where
  tag : Option String := none
  anchor : Option Nat := none
  deriving Repr, DecidableEq

/-- A node of a document. -/
inductive Node where
  | scalar (properties : Properties) (text : String) (style : Style)
  | sequence (properties : Properties) (entries : List Node)
  | mapping (properties : Properties) (entries : List (Node × Node))
  /-- The node with the anchor of a number. -/
  | aliasOf (anchor : Nat)
  deriving Repr, Inhabited

/-- An empty plain scalar. -/
def Node.nothing : Node := .scalar {} "" .plain

/-- The parser's state: the tokens still to be read, and the numbers that stand for anchor names. A
new name gets the number of names before it. -/
structure Parsing where
  tokens : List Token
  anchors : List (String × Nat) := []

/-- A reader of nodes. -/
abbrev Parser (α : Type) := StateT Parsing Option α

/-- What tag handles stand for. -/
abbrev Handles := List (String × String)

namespace Parser

/-- The next token. -/
def peek : Parser Token := do return (← get).tokens.headD .streamEnd

/-- Moves behind the next token. -/
def skip : Parser Unit := modify fun p => { p with tokens := p.tokens.drop 1 }

/-- Moves behind the next token, which is given. -/
def expect (t : Token) : Parser Unit := do
  if (← peek) == t then skip else failure

/-- Gives a name the number of names so far. -/
def numberAnchor (name : String) : Parser Nat := do
  let anchors := (← get).anchors
  let n := anchors.length
  modify fun p => { p with anchors := (name, n) :: anchors.filter fun a => a.1 != name }
  return n

/-- The number of an anchor name. -/
def anchorNumber (name : String) : Parser Nat := do
  match (← get).anchors.lookup name with
  | some n => return n
  | none => failure

/-- A tag written out. -/
def resolveTag (handles : Handles) (handle suffix : String) : Parser String :=
  if handle.isEmpty then return suffix
  else
    match handles.lookup handle with
    | some expansion => return expansion ++ suffix
    | none => failure

/-- An anchor name, if one comes next. -/
def anchorName : Parser (Option String) := do
  match ← peek with
  | .anchor name =>
    skip
    return some name
  | _ => return none

/-- A tag, if one comes next. -/
def tagText (handles : Handles) : Parser (Option String) := do
  match ← peek with
  | .tag handle suffix =>
    skip
    return some (← resolveTag handles handle suffix)
  | _ => return none

/-- The properties of a node, in either order. -/
def properties (handles : Handles) : Parser (Option String × Option String) := do
  match ← anchorName with
  | some name => return (some name, ← tagText handles)
  | none =>
    let tag ← tagText handles
    return (← anchorName, tag)

/-- Numbers the anchor of a node. -/
def numbered (name tag : Option String) : Parser Properties := do
  match name with
  | some n => return ⟨tag, some (← numberAnchor n)⟩
  | none => return ⟨tag, none⟩

/-- An empty node where one of the tokens comes next, and else a node. -/
def orNothing (tokens : List Token) (node : Parser Node) : Parser Node := do
  if tokens.contains (← peek) then return .nothing else node

mutual

/-- A node. Only a block node may be a block collection, and only the value of a mapping may be a
sequence without an indentation of its own. -/
def node (handles : Handles) : Nat → Bool → Bool → Parser Node
  | 0, _, _ => failure
  | fuel + 1, inBlock, indentless => do
    match ← peek with
    | .aliasOf name =>
      skip
      return .aliasOf (← anchorNumber name)
    | _ =>
      let (name, tag) ← properties handles
      let t ← peek
      if t == .blockEntry && indentless then
        let ps ← numbered name tag
        return .sequence ps (← indentlessEntries handles fuel)
      else
        match t, inBlock with
        | .scalar text style, _ =>
          skip
          return .scalar (← numbered name tag) text style
        | .flowSequence, _ =>
          skip
          let ps ← numbered name tag
          return .sequence ps (← flowEntries handles fuel true)
        | .flowMapping, _ =>
          skip
          let ps ← numbered name tag
          return .mapping ps (← flowPairs handles fuel true)
        | .blockSequence, true =>
          skip
          let ps ← numbered name tag
          return .sequence ps (← blockEntries handles fuel)
        | .blockMapping, true =>
          skip
          let ps ← numbered name tag
          return .mapping ps (← blockPairs handles fuel)
        | _, _ =>
          if name.isSome || tag.isSome then return .scalar (← numbered name tag) "" .plain
          else failure

/-- The entries of a block sequence. -/
def blockEntries (handles : Handles) : Nat → Parser (List Node)
  | 0 => failure
  | fuel + 1 => do
    match ← peek with
    | .blockEntry =>
      skip
      let first ← orNothing [.blockEntry, .blockEnd] (node handles fuel true false)
      return first :: (← blockEntries handles fuel)
    | .blockEnd =>
      skip
      return []
    | _ => failure

/-- The entries of a sequence that stands at the column of the mapping around it. -/
def indentlessEntries (handles : Handles) : Nat → Parser (List Node)
  | 0 => failure
  | fuel + 1 => do
    match ← peek with
    | .blockEntry =>
      skip
      let first ← orNothing [.blockEntry, .key, .value, .blockEnd] (node handles fuel true false)
      return first :: (← indentlessEntries handles fuel)
    | _ => return []

/-- The pairs of a block mapping. -/
def blockPairs (handles : Handles) : Nat → Parser (List (Node × Node))
  | 0 => failure
  | fuel + 1 => do
    match ← peek with
    | .key =>
      skip
      let k ← orNothing [.key, .value, .blockEnd] (node handles fuel true true)
      let v ← if (← peek) == .value then do
          skip
          orNothing [.key, .value, .blockEnd] (node handles fuel true true)
        else pure .nothing
      return (k, v) :: (← blockPairs handles fuel)
    | .blockEnd =>
      skip
      return []
    | _ => failure

/-- The entries of a flow sequence; a pair stands for a mapping of its own. -/
def flowEntries (handles : Handles) : Nat → Bool → Parser (List Node)
  | 0, _ => failure
  | fuel + 1, isFirst => do
    if (← peek) != .flowSequenceEnd && !isFirst then expect .flowEntry
    match ← peek with
    | .flowSequenceEnd =>
      skip
      return []
    | .key =>
      skip
      let ends := [Token.value, .flowEntry, .flowSequenceEnd]
      let k ← if ends.contains (← peek) then do
          -- the token behind an empty key is lost
          skip
          pure Node.nothing
        else node handles fuel false false
      let v ← if (← peek) == .value then do
          skip
          orNothing [.flowEntry, .flowSequenceEnd] (node handles fuel false false)
        else pure .nothing
      return .mapping {} [(k, v)] :: (← flowEntries handles fuel false)
    | _ =>
      let first ← node handles fuel false false
      return first :: (← flowEntries handles fuel false)

/-- The pairs of a flow mapping; a node alone is a key. -/
def flowPairs (handles : Handles) : Nat → Bool → Parser (List (Node × Node))
  | 0, _ => failure
  | fuel + 1, isFirst => do
    if (← peek) != .flowMappingEnd && !isFirst then expect .flowEntry
    match ← peek with
    | .flowMappingEnd =>
      skip
      return []
    | .key =>
      skip
      let k ← orNothing [.value, .flowEntry, .flowMappingEnd] (node handles fuel false false)
      let v ← if (← peek) == .value then do
          skip
          orNothing [.flowEntry, .flowMappingEnd] (node handles fuel false false)
        else pure .nothing
      return (k, v) :: (← flowPairs handles fuel false)
    | _ =>
      let k ← node handles fuel false false
      return (k, .nothing) :: (← flowPairs handles fuel false)

end

/-- The directives in front of a document: a version at most once, each tag handle at most once. -/
def directives : Nat → Bool → Handles → Parser Handles
  | 0, _, _ => failure
  | fuel + 1, hasVersion, handles => do
    match ← peek with
    | .version major minor =>
      skip
      if hasVersion || major != 1 || (minor != 1 && minor != 2) then failure
      else directives fuel true handles
    | .tagDirective handle expansion =>
      skip
      if (handles.lookup handle).isSome then failure
      else directives fuel hasVersion ((handle, expansion) :: handles)
    | _ => return handles

/-- The handles that are known without a directive. -/
def defaultHandles : Handles := [("!", "!"), ("!!", "tag:yaml.org,2002:")]

/-- Moves over marks of a document's end. -/
def skipEnds : Nat → Parser Unit
  | 0 => pure ()
  | fuel + 1 => do
    if (← peek) == .documentEnd then
      skip
      skipEnds fuel

/-- The only document; there is none in a text without content. -/
def document (fuel : Nat) : Parser (Option Node) := do
  match ← peek with
  | .streamEnd => return none
  | .version _ _ | .tagDirective _ _ | .documentStart =>
    let handles ← directives fuel false []
    expect .documentStart
    let content ← match ← peek with
      | .version _ _ | .tagDirective _ _ | .documentStart | .documentEnd | .streamEnd =>
        pure Node.nothing
      | _ => node (handles ++ defaultHandles) fuel true false
    finish content
  | _ => finish (← node defaultHandles fuel true false)
where
  finish (content : Node) : Parser (Option Node) := do
    skipEnds fuel
    expect .streamEnd
    return some content

end Parser

/-- The document of a text: none if the text is malformed, and `some none` if it has no content. -/
def document? (text : List Char) : Option (Option Node) := do
  let tokens ← tokens? text
  let fuel := 2 * tokens.length + 2
  (·.1) <$> (Parser.document fuel).run { tokens }

mutual

/-- The nodes of a document with anchors, in document order. -/
def Node.anchored : Node → List (Nat × Node)
  | .scalar ps text style => own ps (.scalar ps text style)
  | .sequence ps entries => own ps (.sequence ps entries) ++ anchoredIn entries
  | .mapping ps entries => own ps (.mapping ps entries) ++ anchoredInPairs entries
  | .aliasOf _ => []
where
  own (ps : Properties) (n : Node) : List (Nat × Node) :=
    match ps.anchor with
    | some a => [(a, n)]
    | none => []

/-- The same for nodes side by side. -/
def anchoredIn : List Node → List (Nat × Node)
  | [] => []
  | n :: rest => n.anchored ++ anchoredIn rest

/-- The same for pairs of nodes. -/
def anchoredInPairs : List (Node × Node) → List (Nat × Node)
  | [] => []
  | (k, v) :: rest => k.anchored ++ v.anchored ++ anchoredInPairs rest

end

/-- The node with an anchor; the last one if several share a number. -/
def Node.withAnchor? (root : Node) (anchor : Nat) : Option Node :=
  (root.anchored.reverse.find? fun a => a.1 == anchor).map (·.2)

end FacadeStubs.Yaml
