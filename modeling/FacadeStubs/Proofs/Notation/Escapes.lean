import FacadeStubs.Php.Notation
import FacadeStubs.Proofs.Decimal.Positional

/-!
# Escapes in double-quoted strings

A string between double quotes is written in pieces: characters that stand for themselves, and escapes
behind a backslash. `Piece.Fits` says where a piece may stand, by the text behind it, so that each run of
digits is as long as it can be and no variable begins. What a piece stands for is said by its constructor
and not by the reader.

* `piece?_written`: in front of any text that it fits, a piece is read whole, as what it stands for, unless
  it is a byte above ASCII;
* `doubleQuotedFrom?_pieces`: pieces one behind the other are read one by one;
* `string?_pieces`: a quoted text of pieces is no constant exactly if a piece is a byte above ASCII, and
  else stands for what its pieces stand for.
-/
namespace FacadeStubs.Php.Notation

open Decimal

/-! ## Pieces -/

/-- The letters and signs that a backslash makes another character of, with that character. -/
def signs : List (Char × Char) :=
  [('n', '\n'), ('t', '\t'), ('r', '\r'), ('v', '\x0b'), ('e', '\x1b'), ('f', '\x0c'), ('\\', '\\'),
   ('$', '$'), ('"', '"')]

/-- The pieces of a text between double quotes. -/
inductive Piece where
  /-- A character that stands for itself. -/
  | raw (c : Char)
  /-- A backslash and one of the signs. -/
  | sign (c : Char)
  /-- A byte in base 16. -/
  | hex (digits : List Char)
  /-- A byte in base 8, which counts modulo 256. -/
  | octal (digits : List Char)
  /-- A code point in braces. -/
  | codePoint (digits : List Char)
  /-- A backslash that escapes nothing, with the character behind it. -/
  | other (c : Char)
  deriving DecidableEq

namespace Piece

/-- How a piece is written. -/
def written : Piece → List Char
  | raw c => [c]
  | sign c => ['\\', c]
  | hex digits => '\\' :: 'x' :: digits
  | octal digits => '\\' :: digits
  | codePoint digits => '\\' :: 'u' :: '\x7b' :: (digits ++ ['\x7d'])
  | other c => ['\\', c]

/-- The byte that a piece stands for, if it is the number of one. -/
def byte? : Piece → Option Nat
  | hex digits => some (positional 16 digits % 256)
  | octal digits => some (positional 8 digits % 256)
  | _ => none

/-- What a piece stands for. -/
def value : Piece → List Char
  | raw c => [c]
  | sign c => [(signs.lookup c).getD c]
  | hex digits => [Char.ofNat (positional 16 digits % 256)]
  | octal digits => [Char.ofNat (positional 8 digits % 256)]
  | codePoint digits => [Char.ofNat (positional 16 digits)]
  | other c => ['\\', c]

/-- Digits of a base, at most so many, and fewer only where no further digit follows. -/
structure IsRun (base most : Nat) (digits rest : List Char) : Prop where
  nonempty : digits ≠ []
  length_le : digits.length ≤ most
  inBase : ∀ c ∈ digits, IsDigitIn base c
  ends : digits.length < most → ∀ d ∈ rest.head?, ¬ IsDigitIn base d

-- A statement about the characters of a text is decided by a walk over the text, not over all characters.
local instance (priority := high) decidableAllIn (p : Char → Prop) [DecidablePred p] (text : List Char) :
    Decidable (∀ c ∈ text, p c) := List.decidableBAll p text

local instance (priority := high) decidableNext (p : Char → Prop) [DecidablePred p] (text : List Char) :
    Decidable (∀ c ∈ text.head?, p c) := Option.decidableForallMem _

instance (base most : Nat) (digits rest : List Char) : Decidable (IsRun base most digits rest) :=
  decidable_of_iff (digits ≠ [] ∧ digits.length ≤ most ∧ (∀ c ∈ digits, IsDigitIn base c) ∧
      (digits.length < most → ∀ d ∈ rest.head?, ¬ IsDigitIn base d))
    ⟨fun ⟨h, h', h'', h'''⟩ => ⟨h, h', h'', h'''⟩, fun ⟨h, h', h'', h'''⟩ => ⟨h, h', h'', h'''⟩⟩

/-- Whether a piece may stand in front of a text. -/
def Fits (rest : List Char) : Piece → Prop
  | raw c => c ≠ '\\' ∧ c ≠ '"' ∧
      (c = '$' → ∀ d ∈ rest.head?, d.isAlpha = false ∧ d ≠ '_' ∧ d ≠ '\x7b') ∧
      (c = '\x7b' → rest.head? ≠ some '$')
  | sign c => c ∈ signs.map Prod.fst
  | hex digits => IsRun 16 2 digits rest
  | octal digits => IsRun 8 3 digits rest
  | codePoint digits =>
      digits ≠ [] ∧ (∀ c ∈ digits, IsDigitIn 16 c) ∧ (positional 16 digits).isValidChar
  | other c => c ∉ signs.map Prod.fst ∧ ¬ IsDigitIn 8 c ∧
      (c = 'x' → ∀ d ∈ rest.head?, ¬ IsDigitIn 16 d) ∧ (c = 'u' → rest.head? ≠ some '\x7b')

instance (rest : List Char) : (p : Piece) → Decidable (p.Fits rest)
  | raw _ => inferInstanceAs (Decidable (_ ∧ _ ∧ _ ∧ _))
  | sign _ => inferInstanceAs (Decidable (_ ∈ _))
  | hex _ => inferInstanceAs (Decidable (IsRun _ _ _ _))
  | octal _ => inferInstanceAs (Decidable (IsRun _ _ _ _))
  | codePoint _ => inferInstanceAs (Decidable (_ ∧ _ ∧ (_ ∨ _)))
  | other _ => inferInstanceAs (Decidable (_ ∧ _ ∧ _ ∧ _))

/-- Whether each piece of a text fits what is behind it. -/
def AllFit : List Piece → Prop
  | [] => True
  | p :: ps => p.Fits (ps.flatMap written) ∧ AllFit ps

def decideAllFit : (ps : List Piece) → Decidable (AllFit ps)
  | [] => .isTrue trivial
  | p :: ps =>
    have := decideAllFit ps
    inferInstanceAs (Decidable (p.Fits (ps.flatMap written) ∧ AllFit ps))

instance : DecidablePred AllFit := decideAllFit

/-- Whether a piece stands for a byte above ASCII. -/
def IsHigh (p : Piece) : Prop := ∃ n ∈ p.byte?, 128 ≤ n

end Piece

open Piece

/-! ## Parts of the reader -/

theorem simpleEscape?_eq_lookup (c : Char) : simpleEscape? c = signs.lookup c := by
  unfold simpleEscape?
  split
  case h_10 =>
    refine (List.lookup_eq_none_iff.2 fun p hp => ?_).symm
    simp only [signs, List.mem_cons, List.not_mem_nil, or_false] at hp
    rcases hp with rfl | rfl | rfl | rfl | rfl | rfl | rfl | rfl | rfl <;> exact bne_iff_ne.2 ‹_›
  all_goals rfl

theorem simpleEscape?_eq_none {c : Char} (h : c ∉ signs.map Prod.fst) : simpleEscape? c = none := by
  rw [simpleEscape?_eq_lookup]
  refine List.lookup_eq_none_iff.2 fun p hp => bne_iff_ne.2 ?_
  rintro rfl
  exact h (List.mem_map_of_mem hp)

/-- No digit is a sign. -/
theorem simpleEscape?_digit {c : Char} (h : IsDigitIn 8 c) : simpleEscape? c = none := by
  have hsigns : (signs.map Prod.fst).all (fun d => ¬ IsDigitIn 8 d) = true := by decide
  exact simpleEscape?_eq_none fun hc => of_decide_eq_true (List.all_eq_true.1 hsigns c hc) h

theorem digitIn?_isSome {base : Nat} (hbase : base ≤ 16) (c : Char) :
    (digitIn? base c).isSome = decide (IsDigitIn base c) := by
  rw [digitIn?_eq hbase]
  split <;> simp [*]

/-- A run of digits is taken whole. -/
theorem digitRun_append {base most : Nat} (hbase : base ≤ 16) {digits rest : List Char}
    (h : IsRun base most digits rest) : digitRun base most (digits ++ rest) = digits := by
  have hdigits : ∀ c ∈ digits, (digitIn? base c).isSome = true := fun c hc => by
    rw [digitIn?_isSome hbase, decide_eq_true (h.inBase c hc)]
  rw [digitRun, List.take_append, List.take_of_length_le h.length_le,
    List.takeWhile_append_of_pos hdigits]
  have hstop : (rest.take (most - digits.length)).takeWhile
      (fun c => (digitIn? base c).isSome) = [] := by
    cases hleft : most - digits.length with
    | zero => rfl
    | succ left =>
      cases rest with
      | nil => rfl
      | cons d rest =>
        have hd := h.ends (by omega) d rfl
        rw [List.take_succ_cons, List.takeWhile_cons_of_neg]
        rw [digitIn?_isSome hbase, decide_eq_false hd]
        exact Bool.false_ne_true
  rw [hstop, List.append_nil]

/-- Where no digit comes next, no run is taken. -/
theorem digitRun_eq_nil {base most : Nat} (hbase : base ≤ 16) {rest : List Char}
    (h : ∀ d ∈ rest.head?, ¬ IsDigitIn base d) : digitRun base most rest = [] := by
  cases rest with
  | nil => simp [digitRun]
  | cons d rest =>
    cases most with
    | zero => rfl
    | succ most =>
      rw [digitRun, List.take_succ_cons, List.takeWhile_cons_of_neg]
      rw [digitIn?_isSome hbase, decide_eq_false (h d rfl)]
      exact Bool.false_ne_true

/-- The code point of digits without a plus sign. -/
theorem codePoint?_digits {digits : List Char} (hne : digits ≠ [])
    (h : ∀ c ∈ digits, IsDigitIn 16 c) (hvalid : (positional 16 digits).isValidChar) :
    codePoint? digits = some (Char.ofNat (positional 16 digits)) := by
  have hread := readDigits?_eq (Nat.le_refl 16) hne h
  have hplus : ∀ rest, digits ≠ '+' :: rest := by
    rintro rest rfl
    exact absurd (h '+' List.mem_cons_self) (by decide)
  unfold codePoint?
  split
  · exact absurd rfl (hplus _)
  · dsimp only
    rw [hread, Option.bind_some, if_pos hvalid]

/-! ## Pieces read -/

section
variable {rest : List Char}

/-- A character that stands for itself is read as such. -/
theorem piece?_raw {c : Char} (h : (raw c).Fits rest) : piece? c rest = some (1, [c]) := by
  obtain ⟨hbackslash, -, hdollar, hbrace⟩ := h
  unfold piece?
  split
  · rename_i d after
    obtain ⟨halpha, hunderscore, hopen⟩ := hdollar rfl d rfl
    rw [if_neg (by simp [halpha, hunderscore, hopen])]
  · exact absurd rfl (hbrace rfl)
  · exact absurd rfl hbackslash
  · rfl

theorem piece?_sign {c e : Char} (h : simpleEscape? c = some e) :
    piece? '\\' (c :: rest) = some (2, [e]) := by
  simp [piece?, h]

/-- A byte in base 16 is read as its character, if it has one. -/
theorem piece?_hex {digits : List Char} (h : IsRun 16 2 digits rest) :
    piece? '\\' ('x' :: (digits ++ rest)) =
      (asciiChar? (positional 16 digits % 256)).map fun e => (2 + digits.length, [e]) := by
  have hlt : positional 16 digits < 256 :=
    Nat.lt_of_lt_of_le (positional_lt (by decide) h.inBase)
      (Nat.pow_le_pow_right (by decide) h.length_le)
  have hread := readDigits?_eq (Nat.le_refl 16) h.nonempty h.inBase
  obtain ⟨d, ds, rfl⟩ := List.exists_cons_of_ne_nil h.nonempty
  have hx : simpleEscape? 'x' = none := rfl
  simp only [piece?, hx, beq_self_eq_true, if_true, digitRun_append (Nat.le_refl 16) h, hread,
    Option.bind_some, Nat.mod_eq_of_lt hlt]

/-- A byte in base 8 is read as its character, if it has one. -/
theorem piece?_octal {d : Char} {digits : List Char} (h : IsRun 8 3 (d :: digits) rest) :
    piece? '\\' (d :: (digits ++ rest)) =
      (asciiChar? (positional 8 (d :: digits) % 256)).map fun e => (2 + digits.length, [e]) := by
  have hd := h.inBase d List.mem_cons_self
  have hx : (d == 'x') = false := beq_false_of_ne fun heq => absurd (heq ▸ hd) (by decide)
  have hsome : (digitIn? 8 d).isSome = true := by
    rw [digitIn?_isSome (by decide), decide_eq_true hd]
  have hrun := digitRun_append (by decide) h
  rw [List.cons_append] at hrun
  simp only [piece?, simpleEscape?_digit hd, hx, hsome, hrun, if_true, Bool.false_eq_true, if_false,
    readDigits?_eq (by decide) h.nonempty h.inBase, Option.bind_some, List.length_cons]
  congr 1
  funext e
  congr 1
  omega

/-- A code point in braces is read as its character. -/
theorem piece?_codePoint {digits : List Char} (h : (codePoint digits).Fits rest) :
    piece? '\\' ('u' :: '\x7b' :: (digits ++ '\x7d' :: rest)) =
      some (digits.length + 4, [Char.ofNat (positional 16 digits)]) := by
  obtain ⟨hne, hdigits, hvalid⟩ := h
  have hclose : ∀ c ∈ digits, (c != '\x7d') = true := fun c hc => bne_iff_ne.2 <| by
    rintro rfl
    exact absurd (hdigits _ hc) (by decide)
  have htake : (digits ++ '\x7d' :: rest).takeWhile (· != '\x7d') = digits := by
    rw [List.takeWhile_append_of_pos hclose, List.takeWhile_cons_of_neg (by decide), List.append_nil]
  have hu : simpleEscape? 'u' = none := rfl
  have hux : ('u' == 'x') = false := rfl
  have hudigit : (digitIn? 8 'u').isSome = false := rfl
  have hlength : digits.length + 1 < ('\x7b' :: (digits ++ '\x7d' :: rest)).length := by
    simp only [List.length_cons, List.length_append]
    omega
  simp only [piece?, hu, hux, hudigit, Bool.false_eq_true, if_false, List.head?_cons, beq_self_eq_true,
    Bool.and_self, if_true, List.drop_succ_cons, List.drop_zero, htake, if_pos hlength,
    codePoint?_digits hne hdigits hvalid, Option.map_some]

/-- A backslash that escapes nothing stands for itself. -/
theorem piece?_other {c : Char} (h : (other c).Fits rest) :
    piece? '\\' (c :: rest) = some (2, ['\\', c]) := by
  obtain ⟨hsign, hoctal, hx, hu⟩ := h
  have hsome : (digitIn? 8 c).isSome = false := by
    rw [digitIn?_isSome (by decide), decide_eq_false hoctal]
  by_cases hcx : c = 'x'
  · subst hcx
    simp [piece?, simpleEscape?_eq_none hsign, digitRun_eq_nil (Nat.le_refl 16) (hx rfl)]
  · have hcu : (c == 'u' && rest.head? == some '\x7b') = false := by
      by_cases hcu : c = 'u'
      · simp [hu hcu]
      · simp [hcu]
    simp only [piece?, simpleEscape?_eq_none hsign, hsome, beq_false_of_ne hcx, hcu, Bool.false_eq_true,
      if_false]

/-- In front of a text that it fits, a piece is read whole, as what it stands for, unless it stands for a
byte above ASCII. -/
theorem piece?_written {p : Piece} (h : p.Fits rest) : ∃ c tail, p.written = c :: tail ∧
    (p.IsHigh → piece? c (tail ++ rest) = none) ∧
      (¬ p.IsHigh → piece? c (tail ++ rest) = some (tail.length + 1, p.value)) := by
  have hlow : ∀ {q : Piece}, q.byte? = none → ¬ q.IsHigh := by
    rintro q hq ⟨n, hn, -⟩
    rw [hq] at hn
    cases hn
  cases p with
  | raw c => exact ⟨c, [], rfl, fun hhigh => absurd hhigh (hlow rfl), fun _ => piece?_raw h⟩
  | sign c =>
    obtain ⟨e, he⟩ : ∃ e, signs.lookup c = some e := by
      have hall : (signs.map Prod.fst).all (fun d => (signs.lookup d).isSome) = true := by decide
      exact Option.isSome_iff_exists.1 (List.all_eq_true.1 hall c h)
    refine ⟨'\\', [c], rfl, fun hhigh => absurd hhigh (hlow rfl), fun _ => ?_⟩
    rw [value, he]
    exact piece?_sign ((simpleEscape?_eq_lookup c).trans he)
  | hex digits =>
    refine ⟨'\\', 'x' :: digits, rfl, ?_, fun hhigh => ?_⟩
    · rintro ⟨n, hn, hhigh⟩
      cases hn
      rw [List.cons_append, piece?_hex h, asciiChar?, if_neg (by omega), Option.map_none]
    · have hn : positional 16 digits % 256 < 128 := Nat.lt_of_not_le fun hle => hhigh ⟨_, rfl, hle⟩
      rw [List.cons_append, piece?_hex h, asciiChar?, if_pos hn, Option.map_some, List.length_cons, value]
      congr 2
      omega
  | octal digits =>
    obtain ⟨d, ds, rfl⟩ := List.exists_cons_of_ne_nil h.nonempty
    refine ⟨'\\', d :: ds, rfl, ?_, fun hhigh => ?_⟩
    · rintro ⟨n, hn, hhigh⟩
      cases hn
      rw [List.cons_append, piece?_octal h, asciiChar?, if_neg (by omega), Option.map_none]
    · have hn : positional 8 (d :: ds) % 256 < 128 := Nat.lt_of_not_le fun hle => hhigh ⟨_, rfl, hle⟩
      rw [List.cons_append, piece?_octal h, asciiChar?, if_pos hn, Option.map_some, List.length_cons, value]
      congr 2
      omega
  | codePoint digits =>
    refine ⟨'\\', 'u' :: '\x7b' :: (digits ++ ['\x7d']), rfl, fun hhigh => absurd hhigh (hlow rfl),
      fun _ => ?_⟩
    simpa [value] using piece?_codePoint h
  | other c => exact ⟨'\\', [c], rfl, fun hhigh => absurd hhigh (hlow rfl), fun _ => piece?_other h⟩

end

/-! ## Texts of pieces -/

/-- What belongs to a piece already read is passed over. -/
theorem doubleQuotedFrom?_skip (read rest : List Char) :
    doubleQuotedFrom? read.length (read ++ rest) = doubleQuotedFrom? 0 rest := by
  induction read with
  | nil => rfl
  | cons c read ih => simpa [doubleQuotedFrom?] using ih

/-- A piece and a text behind it. -/
theorem doubleQuotedFrom?_written {p : Piece} {rest : List Char} (h : p.Fits rest) :
    (p.IsHigh → doubleQuotedFrom? 0 (p.written ++ rest) = none) ∧
      (¬ p.IsHigh → doubleQuotedFrom? 0 (p.written ++ rest) =
        (doubleQuotedFrom? 0 rest).map (p.value ++ ·)) := by
  obtain ⟨c, tail, hwritten, hhigh, hlow⟩ := piece?_written h
  rw [hwritten, List.cons_append]
  constructor
  · intro hp
    rw [doubleQuotedFrom?, hhigh hp]
  · intro hp
    rw [doubleQuotedFrom?, hlow hp]
    dsimp only
    rw [Nat.add_sub_cancel, doubleQuotedFrom?_skip]

/-- Pieces that stand for characters are read one by one. -/
theorem doubleQuotedFrom?_pieces {ps : List Piece} (h : AllFit ps) :
    ((∃ p ∈ ps, p.IsHigh) → doubleQuotedFrom? 0 (ps.flatMap written) = none) ∧
      ((∀ p ∈ ps, ¬ p.IsHigh) →
        doubleQuotedFrom? 0 (ps.flatMap written) = some (ps.flatMap value)) := by
  induction ps with
  | nil => exact ⟨fun ⟨p, hp, _⟩ => absurd hp List.not_mem_nil, fun _ => rfl⟩
  | cons p ps ih =>
    obtain ⟨hp, hps⟩ := h
    obtain ⟨hhigh, hlow⟩ := doubleQuotedFrom?_written hp
    obtain ⟨ihhigh, ihlow⟩ := ih hps
    simp only [List.flatMap_cons]
    constructor
    · rintro ⟨q, hq, hqhigh⟩
      by_cases hphigh : p.IsHigh
      · exact hhigh hphigh
      · rcases List.mem_cons.1 hq with rfl | hq
        · exact absurd hqhigh hphigh
        · rw [hlow hphigh, ihhigh ⟨q, hq, hqhigh⟩, Option.map_none]
    · intro hall
      rw [hlow (hall p List.mem_cons_self),
        ihlow fun q hq => hall q (List.mem_cons_of_mem p hq), Option.map_some]

/-- A text between double quotes, with or without a byte mark, is what stands between the quotes. -/
theorem string?_quoted {mark : List Char} (hmark : mark ∈ [[], ['b'], ['B']]) (inner : List Char) :
    string? (mark ++ '"' :: (inner ++ ['"'])) = doubleQuoted? inner := by
  have hsame : withoutByteMark (mark ++ '"' :: (inner ++ ['"'])) = '"' :: (inner ++ ['"']) := by
    simp only [List.mem_cons, List.not_mem_nil, or_false] at hmark
    rcases hmark with rfl | rfl | rfl
    · cases inner <;> simp [withoutByteMark]
    · rfl
    · rfl
  have hsingle : between? '\'' ('"' :: (inner ++ ['"'])) = none := by simp [between?]
  have hdouble : between? '"' ('"' :: (inner ++ ['"'])) = some inner := by simp [between?]
  unfold string?
  dsimp only
  rw [hsame, hsingle]
  dsimp only
  rw [hdouble, Option.bind_some]

/-- A quoted text of pieces, with or without a byte mark, is no constant exactly if a piece of it is a byte
above ASCII; else it stands for what its pieces stand for. -/
theorem string?_pieces {mark : List Char} (hmark : mark ∈ [[], ['b'], ['B']]) {ps : List Piece}
    (h : AllFit ps) :
    (string? (mark ++ '"' :: (ps.flatMap written ++ ['"'])) = none ↔
        ∃ p ∈ ps, ∃ n ∈ p.byte?, 128 ≤ n) ∧
      ((∀ p ∈ ps, ∀ n ∈ p.byte?, n < 128) →
        string? (mark ++ '"' :: (ps.flatMap written ++ ['"'])) = some (ps.flatMap value)) := by
  obtain ⟨hhigh, hlow⟩ := doubleQuotedFrom?_pieces h
  rw [string?_quoted hmark, doubleQuoted?]
  refine ⟨⟨fun hnone => ?_, hhigh⟩, fun hall => hlow fun p hp ⟨n, hn, hle⟩ => ?_⟩
  · by_contra hno
    rw [hlow fun p hp hphigh => hno ⟨p, hp, hphigh⟩] at hnone
    cases hnone
  · exact absurd (hall p hp n hn) (Nat.not_lt.2 hle)

/-- Pieces of all forms, each of which ends where the next one could go on with it. -/
def mixedPieces : List Piece :=
  [raw '$', sign 'n', hex ['4', '1'], raw 'b', hex ['9'], raw 'g', octal ['1', '0', '1'], raw '7',
   octal ['0'], raw '8', codePoint ['0', '1', 'F', '6', '0', '0'], other 'x', raw 'g', other '\x7b',
   raw '$']

theorem string?_pieces_mixed : AllFit mixedPieces ∧ (∀ p ∈ mixedPieces, ∀ n ∈ p.byte?, n < 128) ∧
    string? (['b'] ++ '"' :: (mixedPieces.flatMap written ++ ['"'])) =
      some "$\nAb\tgA7\x008😀\\xg\\\x7b$".toList := by
  have hfit : AllFit mixedPieces := by decide
  have hlow : ∀ p ∈ mixedPieces, ∀ n ∈ p.byte?, n < 128 := by decide
  have hvalue : mixedPieces.flatMap value = "$\nAb\tgA7\x008😀\\xg\\\x7b$".toList := by decide
  exact ⟨hfit, hlow, ((string?_pieces (by decide) hfit).2 hlow).trans (congrArg some hvalue)⟩

end FacadeStubs.Php.Notation
