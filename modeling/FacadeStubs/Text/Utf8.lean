/-!
# UTF-8 text

Sources are bytes and need not be text. `Utf8.head` reads one character off a byte string or
says how many bytes to give up on; `Utf8.decode?` accepts exactly well-formed byte strings,
`Utf8.lossy` accepts all of them and writes U+FFFD for each stretch it cannot read.
-/
namespace FacadeStubs

/-- A byte string. -/
abbrev Bytes := List UInt8

namespace Utf8

/-- Continuation bytes. -/
def isTail (b : UInt8) : Bool := 0x80 ≤ b && b ≤ 0xBF

/-- The second bytes that a lead byte admits: no overlong form, no surrogate, nothing above
U+10FFFF. -/
def admits (lead next : UInt8) : Bool :=
  if lead == 0xE0 then 0xA0 ≤ next && next ≤ 0xBF
  else if lead == 0xED then 0x80 ≤ next && next ≤ 0x9F
  else if lead == 0xF0 then 0x90 ≤ next && next ≤ 0xBF
  else if lead == 0xF4 then 0x80 ≤ next && next ≤ 0x8F
  else isTail next

/-- The value that a continuation byte adds. -/
def low (b : UInt8) : Nat := b.toNat % 64

/-- Reads one character from `a :: rest`: the character, or `none` for bytes that begin none,
and how many bytes of `rest` belong to what was read. -/
def head (a : UInt8) (rest : Bytes) : Option Char × Nat :=
  if a < 0x80 then (some (Char.ofNat a.toNat), 0)
  else if 0xC2 ≤ a && a ≤ 0xDF then
    match rest with
    | b :: _ => if isTail b then (some (Char.ofNat (a.toNat % 32 * 64 + low b)), 1) else (none, 0)
    | [] => (none, 0)
  else if 0xE0 ≤ a && a ≤ 0xEF then
    match rest with
    | b :: c :: _ =>
      if !admits a b then (none, 0)
      else if !isTail c then (none, 1)
      else (some (Char.ofNat ((a.toNat % 16 * 64 + low b) * 64 + low c)), 2)
    | [b] => if admits a b then (none, 1) else (none, 0)
    | [] => (none, 0)
  else if 0xF0 ≤ a && a ≤ 0xF4 then
    match rest with
    | b :: c :: d :: _ =>
      if !admits a b then (none, 0)
      else if !isTail c then (none, 1)
      else if !isTail d then (none, 2)
      else (some (Char.ofNat (((a.toNat % 8 * 64 + low b) * 64 + low c) * 64 + low d)), 3)
    | [b, c] => if !admits a b then (none, 0) else if isTail c then (none, 2) else (none, 1)
    | [b] => if admits a b then (none, 1) else (none, 0)
    | [] => (none, 0)
  else (none, 0)

/-- Decodes after passing over `skip` bytes that belong to a character already read. -/
def decodeFrom? : Nat → Bytes → Option (List Char)
  | _, [] => some []
  | skip + 1, _ :: rest => decodeFrom? skip rest
  | 0, a :: rest =>
    match head a rest with
    | (some c, n) => (decodeFrom? n rest).map (c :: ·)
    | (none, _) => none

/-- The text of a well-formed byte string. -/
def decode? (bytes : Bytes) : Option (List Char) := decodeFrom? 0 bytes

/-- Decodes after passing over `skip` bytes, with U+FFFD for what is no character. -/
def lossyFrom : Nat → Bytes → List Char
  | _, [] => []
  | skip + 1, _ :: rest => lossyFrom skip rest
  | 0, a :: rest => ((head a rest).1.getD '\uFFFD') :: lossyFrom (head a rest).2 rest

/-- The text of any byte string; each stretch that begins no character reads as U+FFFD. -/
def lossy (bytes : Bytes) : List Char := lossyFrom 0 bytes

/-- The bytes of a text. -/
def encode (text : List Char) : Bytes := text.flatMap String.utf8EncodeChar

/-- The bytes of a string. -/
def bytesOf (s : String) : Bytes := encode s.toList

end Utf8

end FacadeStubs
