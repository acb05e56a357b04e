import FacadeStubs.Export.Fold
import FacadeStubs.Export.Scalar

/-!
# Constant expressions as source text

`Export.text` writes a constant expression so that it means the same in another class: constants of
indexed classes by their value, all others by their full name, arrays over several lines with every
key written out.

An array used as a key is written from the start again, with the full number of references to
follow. Definitions that come back to such a key have no text; `Export.text?` gives `none` for them,
and needs no more restarts than there are arrays.
-/
namespace FacadeStubs.Export

/-- A key of an array after normalisation. -/
inductive ArrayKey where
  | int (value : Int64)
  | str (value : String)
  /-- A key that is known only as source text. -/
  | verbatim (source : String)
  deriving DecidableEq, Repr

/-- A key as source text. -/
def ArrayKey.text : ArrayKey → String
  | .int i => Decimal.intText i.toInt
  | .str s => stringText s
  | .verbatim source => source

/-- The key that a scalar is as an array key: decimal strings are integers, booleans count as 0 and
1, floats lose their fraction, null is the empty string. -/
def scalarKey? : Literal → Option ArrayKey
  | .int i => some (.int i)
  | .bool b => some (.int (if b then 1 else 0))
  | .null => some (.str "")
  | .float f => some (.int f.toInt64)
  | .str s =>
    match Decimal.canonicalInt? s with
    | some i => some (.int i)
    | none => some (.str s)
  | _ => none

/-- An entry of an array whose key and value are written already: no key is an automatic one. -/
structure Slot where
  key : Option ArrayKey
  /-- Whether the value is an array literal, which starts on a line of its own. -/
  isArray : Bool
  text : Option String

/-- The integer after `k`, if there is one. -/
def successor (k : Int64) : Int64 := if k == Int64.maxValue then k else k + 1

/-- The next automatic key after an entry with this key. -/
def nextAfter (next : Int64) : ArrayKey → Int64
  | .int k => if next ≤ k then successor k else next
  | _ => next

/-- Gives every entry a key; an automatic one follows the largest integer key so far. -/
def numbered (next : Int64) : List Slot → List (ArrayKey × Slot)
  | [] => []
  | slot :: rest =>
    let key := slot.key.getD (.int next)
    (key, slot) :: numbered (nextAfter next key) rest

/-- Puts an entry under its key: in place of an earlier one, else at the end. -/
def putEntry (key : ArrayKey) (slot : Slot) : List (ArrayKey × Slot) → List (ArrayKey × Slot)
  | [] => [(key, slot)]
  | (k, s) :: rest => if k = key then (k, slot) :: rest else (k, s) :: putEntry key slot rest

/-- The entries by key, in order of first occurrence, each with its last value. -/
def entriesByKey (slots : List Slot) : List (ArrayKey × Slot) :=
  (numbered 0 slots).foldl (fun pairs (key, slot) => putEntry key slot pairs) []

/-- The lines of one entry. -/
def entryText? (pad : String) (entry : ArrayKey × Slot) : Option String :=
  entry.2.text.map fun value =>
    let gap := if entry.2.isArray then " => \n" ++ pad ++ "  " else " => "
    pad ++ "  " ++ entry.1.text ++ gap ++ value ++ ",\n"

/-- An array over several lines, `indent` blanks from the left. -/
def arrayText? (indent : Nat) (slots : List Slot) : Option String :=
  let pad := String.ofList (List.replicate indent ' ')
  ((entriesByKey slots).mapM (entryText? pad)).map fun lines =>
    "array (\n" ++ joined "" lines ++ pad ++ ")"

/-- What is known while an expression is written: how it folds, which definition a constant has,
and how that definition is written (as a value, as a key) with one reference less to follow. -/
structure Level where
  fold : Literal → Option Literal
  follow : String → String → Option Literal
  valueBelow : Nat → Literal → Option String
  keyBelow : Literal → Option ArrayKey
  /-- Writes an array from the start, as a key. -/
  restart : Literal → Option String

/-- A reference to a constant that is not followed. -/
def referenceText (c n : String) : String :=
  if isClassWord n then stringText c else "\\" ++ c ++ "::" ++ n

/-- A constant as a value. -/
def constantText? (level : Level) (indent : Nat) (c n : String) : Option String :=
  match level.follow c n with
  | some definition => level.valueBelow indent definition
  | none => some (referenceText c n)

/-- Whether an expression is an operator, which has to stand in parentheses as an operand. -/
def isOperator : Literal → Bool
  | .binary _ _ _ => true
  | .unary _ _ => true
  | _ => false

/-- Whether an expression is an array literal. -/
def isArrayLiteral : Literal → Bool
  | .array _ => true
  | _ => false

/-- An operand: its value if it folds, else its own text, an operator in parentheses. -/
def operandText? (level : Level) (v : Literal) (own : Option String) : Option String :=
  match (level.fold v).bind scalarText? with
  | some text => some text
  | none => if isOperator v then own.map fun t => "(" ++ t ++ ")" else own

/-- A constant as a key. -/
def constantKey? (level : Level) (c n : String) : Option ArrayKey :=
  match level.follow c n with
  | some definition => level.keyBelow definition
  | none => some (if isClassWord n then .str c else .verbatim ("\\" ++ c ++ "::" ++ n))

/-- The key that an expression is; `own` is its text as a value. -/
def key? (level : Level) (v : Literal) (own : Unit → Option String) : Option ArrayKey :=
  match v with
  | .classConst c n => constantKey? level c n
  | .lateStatic c n => constantKey? level c n
  | .binary _ _ _ =>
    match level.fold v with
    | some folded => scalarKey? folded
    | none => (own ()).map .verbatim
  | .unary _ _ =>
    match level.fold v with
    | some folded => scalarKey? folded
    | none => (own ()).map .verbatim
  | .array _ => (level.restart v).map .verbatim
  | .expr source => some (.verbatim source)
  | _ => scalarKey? v

mutual

/-- An expression as source text, `indent` blanks from the left. -/
def value? (level : Level) (indent : Nat) : Literal → Option String
  | .null => some "NULL"
  | .bool b => some (if b then "true" else "false")
  | .int i => some (Decimal.intText i.toInt)
  | .float f => some (floatText f)
  | .str s => some (stringText s)
  | .expr source => some source
  | .classConst c n => constantText? level indent c n
  | .lateStatic c n => constantText? level indent c n
  | .array entries =>
    match slots? level (indent + 2) entries with
    | some slots => arrayText? indent slots
    | none => none
  | .binary op l r =>
    match (level.fold (.binary op l r)).bind scalarText? with
    | some text => some text
    | none =>
      match operandText? level l (value? level 0 l), operandText? level r (value? level 0 r) with
      | some a, some b => some (a ++ " " ++ op ++ " " ++ b)
      | _, _ => none
  | .unary op v =>
    match (level.fold (.unary op v)).bind scalarText? with
    | some text => some text
    | none => (operandText? level v (value? level 0 v)).map fun t => op.toString ++ t

/-- The entries of an array with keys and values written. -/
def slots? (level : Level) (indent : Nat) : List ArrayEntry → Option (List Slot)
  | [] => some []
  | entry :: rest =>
    match slot? level indent entry, slots? level indent rest with
    | some slot, some slots => some (slot :: slots)
    | _, _ => none

/-- One entry with key and value written. -/
def slot? (level : Level) (indent : Nat) : ArrayEntry → Option Slot
  | .item v => some ⟨none, isArrayLiteral v, value? level indent v⟩
  | .pair k v =>
    (key? level k fun _ => value? level 0 k).map fun key =>
      ⟨some key, isArrayLiteral v, value? level indent v⟩

end

/-- An expression as a key, its own text written if need be. -/
def keyOf? (level : Level) (v : Literal) : Option ArrayKey := key? level v fun _ => value? level 0 v

/-- What is known when `budget` references may still be followed. -/
def levelAt (index : ClassIndex) (restart : Literal → Option String) : Nat → Level
  | 0 =>
    { fold := fold index 0, follow := fun _ _ => none, valueBelow := fun _ _ => none
      keyBelow := fun _ => none, restart }
  | budget + 1 =>
    let below := levelAt index restart budget
    { fold := fold index (budget + 1), follow := index.constant?, valueBelow := value? below
      keyBelow := keyOf? below, restart }

/-- Writes an expression from the start; arrays used as keys may restart `restarts` times, one
inside the other. -/
def textWithin? (index : ClassIndex) : Nat → Literal → Option String
  | 0, _ => none
  | restarts + 1, v => value? (levelAt index (textWithin? index restarts) maxDepth) 0 v

mutual

/-- The number of array literals in an expression. -/
def arrayCount : Literal → Nat
  | .array entries => arrayCountEntries entries + 1
  | .binary _ l r => arrayCount l + arrayCount r
  | .unary _ v => arrayCount v
  | _ => 0

/-- The number of array literals in entries. -/
def arrayCountEntries : List ArrayEntry → Nat
  | [] => 0
  | .item v :: rest => arrayCount v + arrayCountEntries rest
  | .pair k v :: rest => arrayCount k + arrayCount v + arrayCountEntries rest

end

/-- The number of array literals in the constants of an index. -/
def indexArrayCount (index : ClassIndex) : Nat :=
  index.decls.foldr (fun d n => d.constants.foldr (fun c m => arrayCount c.2 + m) n) 0

/-- The source text of an expression, if it has one. -/
def text? (index : ClassIndex) (v : Literal) : Option String :=
  textWithin? index (indexArrayCount index + arrayCount v + 1) v

/-- The source text of an expression. -/
def text (index : ClassIndex) (v : Literal) : String := (text? index v).getD ""

end FacadeStubs.Export
