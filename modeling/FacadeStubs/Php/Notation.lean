import FacadeStubs.Decimal.Integer
import FacadeStubs.Text.Segments

/-!
# Notation of integers and strings

The value of an integer as it is written in source, and the text of a quoted string. Both refuse
what has no value of its own: an integer beyond 64 bits, a string with a variable in it or with a
byte that is no character.
-/
namespace FacadeStubs.Php.Notation

open Decimal

/-- The value of an integer: base 16 behind `0x`, base 2 behind `0b`, base 8 behind `0o` or a zero,
else base 10. Underscores between digits do not count. -/
def integer? (text : List Char) : Option Int64 :=
  let digits := lowered (text.filter (· != '_'))
  match digits with
  | '0' :: 'x' :: rest => readInt64? 16 rest
  | '0' :: 'b' :: rest => readInt64? 2 rest
  | '0' :: 'o' :: rest => readInt64? 8 rest
  | '0' :: c :: rest => readInt64? 8 (c :: rest)
  | _ => readInt64? 10 digits

/-- The text between single quotes: a backslash escapes a quote or itself, and else stands for
itself. -/
def singleQuoted : List Char → List Char
  | '\\' :: '\\' :: rest => '\\' :: singleQuoted rest
  | '\\' :: '\'' :: rest => '\'' :: singleQuoted rest
  | c :: rest => c :: singleQuoted rest
  | [] => []

/-- The character that a backslash and one letter or sign stand for. -/
def simpleEscape? : Char → Option Char
  | 'n' => some '\n'
  | 't' => some '\t'
  | 'r' => some '\r'
  | 'v' => some '\x0b'
  | 'e' => some '\x1b'
  | 'f' => some '\x0c'
  | '\\' => some '\\'
  | '$' => some '$'
  | '"' => some '"'
  | _ => none

/-- The longest run of at most `most` digits of a base. -/
def digitRun (base most : Nat) (text : List Char) : List Char :=
  (text.take most).takeWhile fun c => (digitIn? base c).isSome

/-- The character of a byte; bytes above ASCII are no characters on their own. -/
def asciiChar? (byte : Nat) : Option Char := if byte < 128 then some (Char.ofNat byte) else none

/-- The character of a code point in base 16, which a plus sign may precede. -/
def codePoint? (hex : List Char) : Option Char :=
  let digits := match hex with
    | '+' :: rest => rest
    | _ => hex
  (readDigits? 16 digits).bind fun n => if n.isValidChar then some (Char.ofNat n) else none

/-- One piece of a double-quoted text: how many characters it takes and what it stands for. There is
none where a variable begins, where a byte is no character, and where a code point is none. -/
def piece? (c : Char) (rest : List Char) : Option (Nat × List Char) :=
  match c, rest with
  | '$', d :: _ => if d.isAlpha || d == '_' || d == '\x7b' then none else some (1, ['$'])
  | '\x7b', '$' :: _ => none
  | '\\', d :: after =>
    match simpleEscape? d with
    | some e => some (2, [e])
    | none =>
      if d == 'x' then
        match digitRun 16 2 after with
        | [] => some (2, ['\\', 'x'])
        | run =>
          (readDigits? 16 run).bind fun n => (asciiChar? n).map fun e => (2 + run.length, [e])
      else if (digitIn? 8 d).isSome then
        let run := digitRun 8 3 rest
        (readDigits? 8 run).bind fun n => (asciiChar? (n % 256)).map fun e => (1 + run.length, [e])
      else if d == 'u' && after.head? == some '\x7b' then
        let hex := (after.drop 1).takeWhile (· != '\x7d')
        if hex.length + 1 < after.length then
          (codePoint? hex).map fun e => (hex.length + 4, [e])
        else none
      else some (2, ['\\', d])
  | _, _ => some (1, [c])

/-- The text between double quotes; `pending` characters belong to a piece already read. -/
def doubleQuotedFrom? : Nat → List Char → Option (List Char)
  | _, [] => some []
  | pending + 1, _ :: rest => doubleQuotedFrom? pending rest
  | 0, c :: rest =>
    match piece? c rest with
    | none => none
    | some (n, value) => (doubleQuotedFrom? (n - 1) rest).map (value ++ ·)

/-- The text between double quotes; none if a variable stands in it. -/
def doubleQuoted? (inner : List Char) : Option (List Char) := doubleQuotedFrom? 0 inner

/-- What stands between two equal quotes. -/
def between? (quote : Char) (text : List Char) : Option (List Char) :=
  match text with
  | c :: rest =>
    if c == quote && rest.getLast? == some quote then some rest.dropLast else none
  | [] => none

/-- A string without the byte mark in front of its quote. -/
def withoutByteMark (text : List Char) : List Char :=
  match text with
  | c :: q :: rest =>
    if (c == 'b' || c == 'B') && (q == '\'' || q == '"') then q :: rest else text
  | _ => text

/-- The text of a quoted string; none if it is no constant. -/
def string? (written : List Char) : Option (List Char) :=
  let text := withoutByteMark written
  match between? '\'' text with
  | some inner => some (singleQuoted inner)
  | none => (between? '"' text).bind doubleQuoted?

end FacadeStubs.Php.Notation
