import FacadeStubs.Export.Scalar
import FacadeStubs.Proofs.Reader.Atoms

/-!
# Scalars as they are written

`scalarWritten` is the expression that the text of a scalar is: one operand, an operand behind a
minus sign, or a row of strings joined where NUL characters stand.

Results:
* `scalarWritten_text`: it is written as the text of the scalar.
* `scalarWritten_proper`: each of its parts is read as what it is written as.
-/
namespace FacadeStubs.Export

open Php Lexical

/-! ## Strings -/

/-- The parts of a string between its NUL characters: the first one and the others. -/
def nulParts : List Char → List Char × List (List Char)
  | [] => ([], [])
  | c :: rest =>
    if c.toNat == 0 then ([], (nulParts rest).1 :: (nulParts rest).2)
    else (c :: (nulParts rest).1, (nulParts rest).2)

/-- The bytes of characters between single quotes, without the quotes. -/
def quotedInside (part : List Char) : Bytes := Utf8.encode (part.flatMap quotedChar)

/-- A string between single quotes. -/
def quotedBytes (part : List Char) : Bytes := 39 :: (quotedInside part ++ [39])

/-- The operator that joins strings. -/
def dot : BinaryOperator := ⟨".", 14, false⟩

/-- An expression with further strings joined to it, a NUL in front of each. -/
def joinedParts (first : Written) : List (List Char) → Written
  | [] => first
  | part :: parts =>
    joinedParts (.binary dot.mark (.binary dot.mark first (.atom nulText)) (.atom (quotedBytes part))) parts

/-- A string as an expression. -/
def stringWritten (s : String) : Written :=
  joinedParts (.atom (quotedBytes (nulParts s.toList).1)) (nulParts s.toList).2

/-- What stands between two strings with a NUL between them. -/
def nulJoint : Bytes := 32 :: 46 :: 32 :: (nulText ++ [32, 46, 32])

theorem quotedInside_cons (c : Char) (part : List Char) :
    quotedInside (c :: part) = Utf8.encode (quotedChar c) ++ quotedInside part := by
  simp [quotedInside, Utf8.encode_append]

theorem encode_quotedChar_nul {c : Char} (h : c.toNat = 0) :
    Utf8.encode (quotedChar c) = 39 :: (nulJoint ++ [39]) := by
  have hc : c = Char.ofNat 0 := by rw [← h, Char.ofNat_toNat]
  subst hc
  rfl

theorem quotedInside_eq (s : List Char) : quotedInside s = quotedInside (nulParts s).1 ++
    (nulParts s).2.flatMap fun part => 39 :: (nulJoint ++ 39 :: quotedInside part) := by
  induction s with
  | nil => rfl
  | cons c s ih =>
    rw [quotedInside_cons, ih, nulParts]
    split
    · rename_i h
      rw [encode_quotedChar_nul (by simpa using h)]
      simp [quotedInside, Utf8.encode]
    · simp [quotedInside_cons]

theorem joinedParts_text (first : Written) (parts : List (List Char)) :
    (joinedParts first parts).text =
      first.text ++ parts.flatMap fun part => nulJoint ++ quotedBytes part := by
  induction parts generalizing first with
  | nil => simp [joinedParts]
  | cons part parts ih =>
    have hdot : dot.bytes = [46] := by decide
    rw [joinedParts, ih]
    simp [Written.text, BinaryOperator.mark, hdot, nulJoint]

/-- The quotes around the joints can be counted to the strings or to the joints. -/
theorem quotes_flatMap (parts : List (List Char)) :
    39 :: parts.flatMap (fun part => nulJoint ++ quotedBytes part) =
      parts.flatMap (fun part => 39 :: (nulJoint ++ 39 :: quotedInside part)) ++ [39] := by
  induction parts with
  | nil => rfl
  | cons part parts ih =>
    simp only [List.flatMap_cons, List.append_assoc, ← ih, quotedBytes, List.cons_append,
      List.nil_append]

theorem stringWritten_text (s : String) :
    (stringWritten s).text = Utf8.bytesOf (stringText s) := by
  have hbytes : Utf8.bytesOf (stringText s) = 39 :: (quotedInside s.toList ++ [39]) := by
    rw [stringText, Utf8.bytesOf_ofList, List.cons_append, Utf8.encode_cons, Utf8.encode_append]
    rfl
  rw [hbytes, quotedInside_eq, stringWritten, joinedParts_text, List.append_assoc, ← quotes_flatMap]
  simp [Written.text, quotedBytes]

theorem nulParts_ne_nul (s : List Char) :
    (∀ c ∈ (nulParts s).1, c.toNat ≠ 0) ∧ ∀ part ∈ (nulParts s).2, ∀ c ∈ part, c.toNat ≠ 0 := by
  induction s with
  | nil => simp [nulParts]
  | cons c s ih =>
    rw [nulParts]
    split
    · simpa using ih
    · rename_i h
      have hc : c.toNat ≠ 0 := by simpa using h
      simpa [hc] using ih

/-- A character other than NUL ends no string and is passed over with its backslash. -/
theorem singleQuoted?_quotedChar {c : Char} (h : c.toNat ≠ 0) (u : Bytes) :
    singleQuoted? (Utf8.encode (quotedChar c) ++ u) =
      (singleQuoted? u).map (· + (Utf8.encode (quotedChar c)).length) := by
  by_cases hb : c = '\\'
  · subst hb
    exact singleQuoted?_escape (by decide)
  by_cases hq : c = '\''
  · subst hq
    exact singleQuoted?_escape (by decide)
  have hself : quotedChar c = [c] := by simp [quotedChar, hb, hq, h]
  have hbytes : Utf8.encode [c] = String.utf8EncodeChar c := by simp [Utf8.encode]
  rw [hself, hbytes]
  -- a byte below 128 stands for the character itself, and none of the three does here
  have hne : ∀ b ∈ String.utf8EncodeChar c, ∀ d : Char, d.toNat < 128 → d ≠ c →
      b ≠ d.toNat.toUInt8 := by
    rintro b hmem d hd hdc rfl
    have hlt : d.toNat.toUInt8 < 128 := by
      rw [UInt8.lt_iff_toNat_lt]
      simp
      omega
    have heq := Utf8.toNat_of_mem_utf8EncodeChar hmem hlt
    refine hdc (Char.toNat_inj.1 ?_)
    rw [heq]
    simp
    omega
  refine singleQuoted?_append fun b hmem => ⟨?_, ?_, ?_⟩
  · exact hne b hmem (Char.ofNat 0) (by decide) (by rintro rfl; exact h rfl)
  · exact hne b hmem '\'' (by decide) (Ne.symm hq)
  · exact hne b hmem '\\' (by decide) (Ne.symm hb)

theorem singleQuoted?_inside {part : List Char} (h : ∀ c ∈ part, c.toNat ≠ 0) (u : Bytes) :
    singleQuoted? (quotedInside part ++ 39 :: u) = some ((quotedInside part).length + 1) := by
  induction part with
  | nil => simpa [quotedInside, Utf8.encode] using singleQuoted?_quote u
  | cons c part ih =>
    rw [quotedInside_cons, List.append_assoc, singleQuoted?_quotedChar (h c (by simp)),
      ih fun d hd => h d (by simp [hd])]
    simp
    omega

theorem joinedParts_proper {first : Written} {parts : List (List Char)} (hfirst : first.Proper)
    (h : ∀ part ∈ parts, ∀ c ∈ part, c.toNat ≠ 0) : (joinedParts first parts).Proper := by
  induction parts generalizing first with
  | nil => exact hfirst
  | cons part parts ih =>
    have hdot : dot ∈ operators := by
      simp [operators, signOperators, dot]
    refine ih ⟨fits_mark hdot _ _, ⟨fits_mark hdot _ _, hfirst, isAtom_nulText⟩, isAtom_quoted fun u => ?_⟩
      fun q hq => h q (by simp [hq])
    exact singleQuoted?_inside (h part (by simp)) u

theorem stringWritten_proper (s : String) : (stringWritten s).Proper := by
  obtain ⟨hfirst, hparts⟩ := nulParts_ne_nul s.toList
  exact joinedParts_proper (isAtom_quoted fun u => singleQuoted?_inside hfirst u) hparts

/-! ## Numbers -/

/-- Characters that are digits. -/
def AllDigits (ds : List Char) : Prop := ∀ c ∈ ds, c.isDigit = true

theorem toNat_of_isDigit {c : Char} (h : c.isDigit = true) : 48 ≤ c.toNat ∧ c.toNat ≤ 57 := by
  simp only [Char.isDigit, Bool.and_eq_true, decide_eq_true_eq] at h
  exact ⟨UInt32.le_iff_toNat_le.1 h.1, UInt32.le_iff_toNat_le.1 h.2⟩

theorem encode_digits {ds : List Char} (h : AllDigits ds) :
    ∀ b ∈ Utf8.encode ds, Lexical.isDigit b = true := by
  have hascii : ∀ c ∈ ds, c.toNat < 128 := fun c hc => by
    have := toNat_of_isDigit (h c hc)
    omega
  rw [Utf8.encode_ascii hascii]
  intro b hb
  obtain ⟨c, hc, rfl⟩ := List.mem_map.1 hb
  have := toNat_of_isDigit (h c hc)
  have hn : c.toNat.toUInt8.toNat = c.toNat := by simp; omega
  simp only [Lexical.isDigit, Bool.and_eq_true, decide_eq_true_eq, UInt8.le_iff_toNat_le, hn]
  exact this

theorem encode_ne_nil {ds : List Char} (h : ds ≠ []) : Utf8.encode ds ≠ [] := by
  obtain ⟨c, ds, rfl⟩ := List.exists_cons_of_ne_nil h
  rw [Utf8.encode_cons]
  simp [String.utf8EncodeChar_ne_nil]

theorem allDigits_toDigits (n : Nat) : AllDigits (Nat.toDigits 10 n) := fun _ hc =>
  Nat.isDigit_of_mem_toDigits (by decide) (by decide) hc

theorem allDigits_append {s t : List Char} (hs : AllDigits s) (ht : AllDigits t) :
    AllDigits (s ++ t) := fun c hc => (List.mem_append.1 hc).elim (hs c) (ht c)

theorem allDigits_zeros (n : Nat) : AllDigits (List.replicate n '0') := fun c hc => by
  rw [(List.mem_replicate.1 hc).2]
  rfl

/-- Only zero is written with a leading zero. -/
theorem toDigits_head (n : Nat) (h : (Nat.toDigits 10 n).head? = some '0') : n = 0 := by
  by_cases hn : n < 10
  · rw [Nat.toDigits_of_lt_base hn] at h
    have hall : ∀ n < 10, [Nat.digitChar n].head? = some '0' → n = 0 := by decide
    exact hall n hn h
  · obtain ⟨c, ds, hd⟩ := List.exists_cons_of_ne_nil (Nat.toDigits_ne_nil (n := n / 10) (b := 10))
    rw [Nat.toDigits_of_base_le (by decide) (by omega), hd] at h
    have := toDigits_head (n / 10) (by rw [hd]; simpa using h)
    omega
termination_by n

theorem encode_toDigits_head {n : Nat} (h : (Utf8.encode (Nat.toDigits 10 n)).head? = some 48) :
    Utf8.encode (Nat.toDigits 10 n) = [48] := by
  have h0 : n = 0 := by
    refine toDigits_head n ?_
    obtain ⟨c, ds, hd⟩ := List.exists_cons_of_ne_nil (Nat.toDigits_ne_nil (n := n) (b := 10))
    have hc := toNat_of_isDigit (allDigits_toDigits n c (by rw [hd]; simp))
    rw [hd, Utf8.encode_cons, Utf8.utf8EncodeChar_ascii (by omega)] at h
    have hbyte : c.toNat.toUInt8 = 48 := by simpa using h
    have hnat : c.toNat = 48 := by
      have := congrArg UInt8.toNat hbyte
      simp at this
      omega
    rw [hd, List.head?_cons, Option.some.injEq, ← Char.toNat_inj, hnat]
    rfl
  subst h0
  rfl

theorem isAtom_natText (n : Nat) : IsAtom (Utf8.bytesOf (Decimal.natText n)) := by
  rw [Decimal.natText, Utf8.bytesOf_ofList]
  exact isAtom_digits (encode_ne_nil Nat.toDigits_ne_nil) (encode_digits (allDigits_toDigits n))
    encode_toDigits_head

/-- Digits around a point, as characters. -/
theorem isAtom_pointText {w f : List Char} (hne : w ≠ []) (hw : AllDigits w) (hf : AllDigits f) :
    IsAtom (Utf8.encode (w ++ '.' :: f)) := by
  rw [Utf8.encode_append, Utf8.encode_cons]
  exact isAtom_point (encode_ne_nil hne) (encode_digits hw) (encode_digits hf)

/-- Digits around a point with an exponent, as characters. -/
theorem isAtom_exponentText {w f ds : List Char} {sign : Char} (hne : w ≠ []) (hw : AllDigits w)
    (hf : AllDigits f) (hsign : sign = '+' ∨ sign = '-') (hds : ds ≠ []) (hd : AllDigits ds) :
    IsAtom (Utf8.encode (w ++ '.' :: (f ++ 'E' :: sign :: ds))) := by
  rw [Utf8.encode_append, Utf8.encode_cons, Utf8.encode_append, Utf8.encode_cons, Utf8.encode_cons]
  rcases hsign with rfl | rfl
  · exact isAtom_exponent (encode_ne_nil hne) (encode_digits hw) (encode_digits hf) (.inl rfl)
      (encode_ne_nil hds) (encode_digits hd)
  · exact isAtom_exponent (encode_ne_nil hne) (encode_digits hw) (encode_digits hf) (.inr rfl)
      (encode_ne_nil hds) (encode_digits hd)

theorem allDigits_take {ds : List Char} (h : AllDigits ds) (n : Nat) : AllDigits (ds.take n) :=
  fun c hc => h c (List.mem_of_mem_take hc)

theorem allDigits_drop {ds : List Char} (h : AllDigits ds) (n : Nat) : AllDigits (ds.drop n) :=
  fun c hc => h c (List.mem_of_mem_drop hc)

theorem isAtom_positional {digits : List Char} (hne : digits ≠ []) (h : AllDigits digits)
    (place : Int) : IsAtom (Utf8.encode (positional digits place)) := by
  rw [positional]
  split
  · exact isAtom_pointText (w := ['0']) (by simp) (allDigits_zeros 1)
      (allDigits_append (allDigits_zeros _) h)
  · refine isAtom_pointText ?_ (allDigits_append (allDigits_take h _) (allDigits_zeros _)) ?_
    · obtain ⟨d, ds, rfl⟩ := List.exists_cons_of_ne_nil hne
      simp
    · split
      · exact allDigits_zeros 1
      · exact allDigits_drop h _

theorem isAtom_scientific {digits : List Char} (hne : digits ≠ []) (h : AllDigits digits)
    (place : Int) : IsAtom (Utf8.encode (scientific digits place)) := by
  simp only [scientific, List.append_assoc, List.cons_append]
  refine isAtom_exponentText ?_ (allDigits_take h 1) ?_ ?_ Nat.toDigits_ne_nil (allDigits_toDigits _)
  · obtain ⟨d, ds, rfl⟩ := List.exists_cons_of_ne_nil hne
    simp
  · split
    · exact allDigits_zeros 1
    · exact allDigits_drop h _
  · split
    · exact .inr rfl
    · exact .inl rfl

theorem isAtom_magnitudeText (m : Nat) (q : Int) : IsAtom (Utf8.encode (magnitudeText m q)) := by
  simp only [magnitudeText]
  split
  · exact isAtom_positional Nat.toDigits_ne_nil (allDigits_toDigits _) _
  · exact isAtom_scientific Nat.toDigits_ne_nil (allDigits_toDigits _) _

/-! ## All scalars -/

/-- An operand with a minus sign in front of it, or without. -/
def signedAtom (negative : Bool) (t : Bytes) : Written :=
  if negative then .sign 45 [] (.atom t) else .atom t

/-- An integer as an expression. -/
def intWritten (i : Int) : Written :=
  signedAtom (i < 0) (Utf8.bytesOf (Decimal.natText i.natAbs))

/-- A float as an expression. -/
def floatWritten (f : Float) : Written :=
  match Decimal.Number.ofFloat f with
  | .nan => .atom (Utf8.bytesOf "NAN")
  | .infinite negative => signedAtom negative (Utf8.bytesOf "INF")
  | .finite negative m q =>
    signedAtom negative (Utf8.encode (if m == 0 then ['0', '.', '0'] else magnitudeText m q))

/-- A scalar as an expression; all else is empty. -/
def scalarWritten : Literal → Written
  | .null => .atom (Utf8.bytesOf "NULL")
  | .bool b => .atom (Utf8.bytesOf (if b then "true" else "false"))
  | .int i => intWritten i.toInt
  | .float f => floatWritten f
  | .str s => stringWritten s
  | _ => .atom []

theorem intWritten_text (i : Int) : (intWritten i).text = Utf8.bytesOf (Decimal.intText i) := by
  simp only [intWritten, signedAtom, Decimal.intText, decide_eq_true_eq]
  split
  · rw [Utf8.bytesOf_append]
    rfl
  · rfl

theorem floatWritten_text (f : Float) : (floatWritten f).text = Utf8.bytesOf (floatText f) := by
  unfold floatWritten floatText
  cases Decimal.Number.ofFloat f with
  | nan => rfl
  | infinite negative => cases negative <;> rfl
  | finite negative m q =>
    dsimp only
    rw [Utf8.bytesOf_ofList]
    cases negative
    · rfl
    · simp only [signedAtom, if_true, Utf8.encode_cons]
      rfl

/-- A scalar is written as its text. -/
theorem scalarWritten_text {v : Literal} {t : String} (h : scalarText? v = some t) :
    (scalarWritten v).text = Utf8.bytesOf t := by
  cases v with
  | null => cases h; rfl
  | bool b => cases h; rfl
  | int i => cases h; exact intWritten_text _
  | float f => cases h; exact floatWritten_text f
  | str s => cases h; exact stringWritten_text s
  | _ => cases h

theorem signedAtom_proper {t : Bytes} (h : IsAtom t) (negative : Bool) :
    (signedAtom negative t).Proper := by
  cases negative
  · exact h
  · exact ⟨rfl, .nil, h⟩

theorem floatWritten_proper (f : Float) : (floatWritten f).Proper := by
  rw [floatWritten]
  split
  · exact isAtom_numberName (by decide)
  · exact signedAtom_proper (isAtom_numberName (by decide)) _
  · refine signedAtom_proper ?_ _
    split
    · exact isAtom_pointText (w := ['0']) (by simp) (allDigits_zeros 1) (allDigits_zeros 1)
    · exact isAtom_magnitudeText _ _

/-- Each part of a scalar is read as what it is written as. -/
theorem scalarWritten_proper {v : Literal} {t : String} (h : scalarText? v = some t) :
    (scalarWritten v).Proper := by
  cases v with
  | null => exact isAtom_literalWord (by decide)
  | bool b =>
    cases b
    · exact isAtom_literalWord (by decide)
    · exact isAtom_literalWord (by decide)
  | int i => exact signedAtom_proper (isAtom_natText _) _
  | float f => exact floatWritten_proper f
  | str s => exact stringWritten_proper s
  | _ => cases h

end FacadeStubs.Export
