import FacadeStubs.Proofs.Reader.Steps

/-!
# Tokens in front of what ends them

The lengths of names, numbers, strings and gaps are measured at the front of all that is left of a
source. These lemmas say that a token written in front of a byte that cannot belong to it is measured
as it was written.

Results:
* `nameLength_append`, `wordAt_append`: a name ends where a byte follows that no name has.
* `gaps_space`, `BeginsToken.gaps`: a blank is passed over, and nothing of a token is.
* `integerLength_digits`, `floatLength_digits`, `floatLength_point`: digits without a point are no
  float, digits with one are no shorter float.
* `singleQuoted?_append`, `singleQuoted?_escape`, `singleQuoted?_quote`: the quote in front of which
  nothing is escaped ends a string.
-/
namespace FacadeStubs

/-- The small form of an ASCII letter; every other byte is as it is. -/
def lowerByte (b : UInt8) : UInt8 := if 65 ≤ b ∧ b ≤ 90 then b + 32 else b

namespace Php

open Lexical

/-! ## Boundaries -/

/-- No byte follows that could go on a name or a number. -/
def Boundary (u : Bytes) : Prop := ∀ b ∈ u.head?, isLabelByte b = false

theorem boundary_nil : Boundary [] := by simp [Boundary]

theorem boundary_cons {b : UInt8} {u : Bytes} (h : isLabelByte b = false) : Boundary (b :: u) := by
  simpa [Boundary] using h

namespace Lexical

/-- Bytes that a class of bytes tells apart differ. -/
theorem beq_eq_false_of_class {p : UInt8 → Bool} {a b : UInt8} (ha : p a = !p b) :
    (a == b) = false := by
  rw [beq_eq_false_iff_ne]
  rintro rfl
  cases h : p a <;> simp [h] at ha

theorem isLabelByte_eq_false {a : UInt8} (h : isLabelByte a = false) :
    isLetter a = false ∧ isDigit a = false ∧ a < 0x80 := by
  simp only [isLabelByte, Bool.or_eq_false_iff, decide_eq_false_iff_not, UInt8.not_le] at h
  exact ⟨h.1.1, h.1.2, h.2⟩

theorem isWidePair_ascii {a : UInt8} (h : a < 0x80) (b : UInt8) : isWidePair a b = false := by
  simp only [isWidePair]
  grind

theorem isWideTriple_ascii {a : UInt8} (h : a < 0x80) (b c : UInt8) :
    isWideTriple a b c = false := by
  simp only [isWideTriple]
  grind

/-! ## Names -/

theorem nameTail_boundary : ∀ {u : Bytes}, Boundary u → nameTail u = 0
  | [], _ => by simp [nameTail]
  | a :: rest, h => by
    obtain ⟨hl, hd, ha⟩ := isLabelByte_eq_false (h a (by simp))
    unfold nameTail
    simp only [hl, hd, Bool.or_self, isWidePair_ascii ha, isWideTriple_ascii ha]
    grind

theorem nameLength_boundary : ∀ {u : Bytes}, Boundary u → nameLength u = 0
  | [], _ => rfl
  | a :: rest, h => by
    rw [nameLength, nameTail_boundary h, ite_self]

theorem isTail_label {a : UInt8} (h : isLabelByte a = false) : Utf8.isTail a = false := by
  have ha := (isLabelByte_eq_false h).2.2
  simp only [Utf8.isTail]
  grind

/-- A run of name characters, each of one to three bytes, does not go on behind a boundary. -/
theorem nameTail_append {s u : Bytes} (hu : Boundary u) : nameTail (s ++ u) = nameTail s := by
  fun_induction nameTail s with
  | case1 => exact nameTail_boundary hu
  | case2 a rest h ih =>
    rw [List.cons_append, nameTail.eq_def]
    simp only [h, if_true, ih]
  | case3 a h =>
    cases u with
    | nil => simp [nameTail, h]
    | cons b u =>
      have hb := isTail_label (hu b (by simp))
      have hadmits : Utf8.admits a b = false := by
        have hlow := (isLabelByte_eq_false (hu b (by simp))).2.2
        simp only [Utf8.admits]
        grind
      cases u <;> simp [nameTail, h, isWidePair, isWideTriple, hb, hadmits]
  | case4 a h b rest h' ih =>
    rw [List.cons_append, List.cons_append, nameTail.eq_def]
    simp only [h, h', if_true, ih, Bool.false_eq_true, if_false]
  | case5 a h b h' =>
    cases u with
    | nil => simp [nameTail, h, h']
    | cons c u => simp [nameTail, h, h', isWideTriple, isTail_label (hu c (by simp))]
  | case6 a h b h' c rest h'' ih =>
    rw [List.cons_append, List.cons_append, List.cons_append, nameTail.eq_def]
    simp only [h, h', h'', if_true, ih, Bool.false_eq_true, if_false]
  | case7 a h b h' c rest h'' =>
    simp [nameTail, h, h', h'']

theorem nameLength_front {s u : Bytes} (hu : Boundary u) : nameLength (s ++ u) = nameLength s := by
  cases s with
  | nil => exact nameLength_boundary hu
  | cons a s =>
    have htail : nameTail (a :: (s ++ u)) = nameTail (a :: s) := nameTail_append (s := a :: s) hu
    rw [List.cons_append, nameLength, nameLength, htail]

theorem nameTail_le (s : Bytes) : nameTail s ≤ s.length := by
  fun_induction nameTail s <;> simp <;> omega

theorem nameLength_le : ∀ s : Bytes, nameLength s ≤ s.length
  | [] => Nat.le_refl 0
  | a :: s => by
    rw [nameLength]
    split
    · exact Nat.zero_le _
    · exact nameTail_le _

/-- The bytes of a run of name characters are one such run. -/
theorem nameTail_front (s : Bytes) : nameTail (s.take (nameTail s)) = nameTail s := by
  fun_induction nameTail s with
  | case1 => rfl
  | case2 a rest h ih =>
    rw [List.take_succ_cons, nameTail.eq_def]
    simp only [h, if_true, ih]
  | case4 a h b rest h' ih =>
    rw [List.take_succ_cons, List.take_succ_cons, nameTail.eq_def]
    simp only [h, h', if_true, ih, Bool.false_eq_true, if_false]
  | case6 a h b h' c rest h'' ih =>
    rw [List.take_succ_cons, List.take_succ_cons, List.take_succ_cons, nameTail.eq_def]
    simp only [h, h', h'', if_true, ih, Bool.false_eq_true, if_false]
  | case3 | case5 | case7 => rfl
/-- The first word of a text is all in the text. -/
theorem exactWordAt_front {s u : Bytes} (hu : Boundary u) :
    exactWordAt (s ++ u) = exactWordAt s := by
  rw [exactWordAt, nameLength_front hu, List.take_append_of_le_length (nameLength_le s)]
  rfl

end Lexical

/-- Bytes that are a name and nothing else. -/
def IsName (s : Bytes) : Prop := s ≠ [] ∧ nameLength s = s.length

instance (s : Bytes) : Decidable (IsName s) := inferInstanceAs (Decidable (_ ∧ _))

/-- What is measured as a name is one. -/
theorem isName_front {w : Bytes} (h : nameLength w ≠ 0) : IsName (w.take (nameLength w)) := by
  cases w with
  | nil => exact absurd rfl h
  | cons a s =>
    by_cases hdigit : isDigit a = true
    · simp [nameLength, hdigit] at h
    have hname : ∀ t, nameLength (a :: t) = nameTail (a :: t) := fun t => if_neg hdigit
    have hle := nameLength_le (a :: s)
    have hfront := nameTail_front (a :: s)
    rw [← hname] at hfront
    obtain ⟨n, hn⟩ := Nat.exists_eq_succ_of_ne_zero h
    rw [hn] at hfront hle ⊢
    rw [List.take_succ_cons] at hfront ⊢
    refine ⟨List.cons_ne_nil _ _, (hname _).trans (hfront.trans ?_)⟩
    rw [List.length_cons] at hle
    rw [List.length_cons, List.length_take, Nat.min_eq_left (Nat.le_of_succ_le_succ hle)]

namespace Lexical

theorem nameLength_append {s u : Bytes} (hs : IsName s) (hu : Boundary u) :
    nameLength (s ++ u) = s.length := by
  rw [nameLength_front hu, hs.2]

theorem wordAt_append {s u : Bytes} (hs : IsName s) (hu : Boundary u) :
    wordAt (s ++ u) = String.ofList (folded s) := by
  rw [wordAt, nameLength_append hs hu, List.take_left]

theorem wordAt_boundary {u : Bytes} (hu : Boundary u) : wordAt u = "" := by
  rw [wordAt, nameLength_boundary hu]; rfl

/-! ## Gaps -/

/-- A token begins here, or nothing is left: there is no blank, comment or closing tag. -/
structure BeginsToken (w : Bytes) : Prop where
  blank : blankLength w = 0
  comment : ∀ attributes, commentLength attributes w = 0
  tag : atClosingTag w = false

namespace BeginsToken

variable {w : Bytes}

theorem triviumLength (h : BeginsToken w) (attributes : Bool) :
    triviumLength attributes w = 0 := by
  simp [Lexical.triviumLength, h.blank, h.comment]

theorem interpolationLength (h : BeginsToken w) : interpolationLength w = 0 := by
  simp [Lexical.interpolationLength, h.tag]

theorem gapLength (h : BeginsToken w) (attributes : Bool) : gapLength attributes w = 0 := by
  simp [Lexical.gapLength, h.interpolationLength, h.triviumLength]

theorem runLength {one : Bytes → Nat} (h : one w = 0) : runLength one 0 w = 0 := by
  cases w with
  | nil => rfl
  | cons a rest => simp [Lexical.runLength, h]

theorem gaps (h : BeginsToken w) : gaps w = 0 := runLength (h.gapLength false)

theorem gapsBeforeAttributes (h : BeginsToken w) : gapsBeforeAttributes w = 0 :=
  runLength (h.gapLength true)

theorem trivia (h : BeginsToken w) (attributes : Bool) : trivia attributes w = 0 :=
  runLength (h.triviumLength attributes)

theorem behindSpace? (h : BeginsToken w) : behindSpace? false w = some w ∨
    behindSpace? false w = none := by
  cases w with
  | nil => exact .inl rfl
  | cons a rest =>
    have hspace : isSpace a = false := by
      cases hs : isSpace a with
      | false => rfl
      | true =>
        have hone : blankLength (a :: rest) = 1 := by
          unfold blankLength
          exact if_pos (by simpa [isSpace] using hs)
        rw [h.blank] at hone
        cases hone
    unfold Lexical.behindSpace?
    simp only [hspace, Bool.false_eq_true, if_false]
    split
    · rename_i h47
      cases rest with
      | nil => exact .inr rfl
      | cons b rest =>
        by_cases hb : b = 47
        · have hcomment := h.comment false
          simp only [beq_iff_eq] at h47
          simp [commentLength, h47, hb] at hcomment
        · exact .inr (by simp [hb])
    · exact .inl rfl

theorem closesStatement (h : BeginsToken w) : closesStatement w = false := by
  unfold Lexical.closesStatement
  rcases h.behindSpace? with hw | hw
  · rw [hw]
    exact h.tag
  · rw [hw]

theorem gapsBeforeEnd (h : BeginsToken w) (asks : Bool) : gapsBeforeEnd 0 asks w = (0, false) := by
  cases w with
  | nil => rfl
  | cons a rest =>
    unfold Lexical.gapsBeforeEnd
    simp [h.closesStatement, h.blank, h.gapLength]

end BeginsToken

theorem beginsToken_nil : BeginsToken [] := ⟨rfl, fun _ => rfl, rfl⟩

/-- A printed ASCII byte that begins no comment and no closing tag. -/
def isSolid (a : UInt8) : Bool := 33 ≤ a && a < 127 && a != 35 && a != 47 && a != 63

theorem isSolid_iff {a : UInt8} :
    isSolid a = true ↔ 33 ≤ a ∧ a < 127 ∧ a ≠ 35 ∧ a ≠ 47 ∧ a ≠ 63 := by
  simp [isSolid, and_assoc]

theorem isSolid_digit {a : UInt8} (h : isDigit a = true) : isSolid a = true := by
  simp only [isDigit, Bool.and_eq_true, decide_eq_true_eq] at h
  rw [isSolid_iff]
  grind

theorem isSolid_letter {a : UInt8} (h : isLetter a = true) : isSolid a = true := by
  simp only [isLetter, Bool.or_eq_true, Bool.and_eq_true, decide_eq_true_eq, beq_iff_eq] at h
  rw [isSolid_iff]
  grind

theorem blankLength_printed {a : UInt8} {rest : Bytes} (h : 33 ≤ a) (h' : a < 127) :
    blankLength (a :: rest) = 0 := by
  have h1 : ((9 ≤ a && a ≤ 13) || a == 32) = false := by grind
  have h3 : ∀ b c, isBlankTriple a b c = false := by
    simp only [isBlankTriple]; grind
  unfold blankLength
  simp only [h1, h3]
  grind

theorem commentLength_of_ne {a : UInt8} {rest : Bytes} (h35 : a ≠ 35) (h47 : a ≠ 47)
    (attributes : Bool) : commentLength attributes (a :: rest) = 0 := by
  cases rest <;> simp [commentLength, h35, h47]

theorem atClosingTag_of_ne {a : UInt8} {rest : Bytes} (h63 : a ≠ 63) :
    atClosingTag (a :: rest) = false := by
  simp [atClosingTag, beginsWith, beginsWith.go, ascii, Ne.symm h63]

theorem beginsToken_solid {a : UInt8} {rest : Bytes} (h : isSolid a = true) :
    BeginsToken (a :: rest) := by
  obtain ⟨h33, h127, h35, h47, h63⟩ := isSolid_iff.1 h
  exact ⟨blankLength_printed h33 h127, commentLength_of_ne h35 h47, atClosingTag_of_ne h63⟩

/-- The first character of a name: a letter, or a wide character of two or three bytes. -/
theorem nameLength_cases {w : Bytes} (h : nameLength w ≠ 0) :
    (∃ a rest, w = a :: rest ∧ isLetter a = true) ∨
      (∃ a b rest, w = a :: b :: rest ∧ isWidePair a b = true) ∨
      ∃ a b c rest, w = a :: b :: c :: rest ∧ isWideTriple a b c = true := by
  cases w with
  | nil => exact absurd rfl h
  | cons a rest =>
    rw [nameLength] at h
    split at h
    · exact absurd rfl h
    rename_i hd
    rw [nameTail.eq_def] at h
    dsimp only at h
    split at h
    · rename_i hl
      exact .inl ⟨a, rest, rfl, by simpa [hd] using hl⟩
    split at h
    · exact absurd rfl h
    split at h
    · rename_i hp
      exact .inr (.inl ⟨a, _, _, rfl, hp⟩)
    split at h
    · exact absurd rfl h
    split at h
    · rename_i ht
      exact .inr (.inr ⟨a, _, _, _, rfl, ht⟩)
    · exact absurd rfl h

/-- A name begins with a byte of names. -/
theorem nameLength_head {w : Bytes} (h : nameLength w ≠ 0) :
    ∃ a rest, w = a :: rest ∧ isLabelByte a = true := by
  obtain ⟨a, rest, rfl, hl⟩ | ⟨a, b, rest, rfl, hp⟩ | ⟨a, b, c, rest, rfl, ht⟩ := nameLength_cases h
  · exact ⟨a, rest, rfl, by simp [isLabelByte, hl]⟩
  · simp only [isWidePair, Bool.and_eq_true, decide_eq_true_eq] at hp
    exact ⟨a, b :: rest, rfl, by simp only [isLabelByte]; grind⟩
  · simp only [isWideTriple, Bool.and_eq_true, decide_eq_true_eq] at ht
    exact ⟨a, b :: c :: rest, rfl, by simp only [isLabelByte]; grind⟩

/-- A sign that stands in no name does not stand where a name does. -/
theorem beginsWith_name {w : Bytes} {text : String} {c : Char} {cs : List Char}
    (h : nameLength w ≠ 0) (ht : text.toList = c :: cs) (hc : isLabelByte (ascii c) = false) :
    beginsWith text w = false := by
  obtain ⟨a, rest, rfl, ha⟩ := nameLength_head h
  have hne : (ascii c == a) = false := beq_eq_false_of_class (p := isLabelByte) (by rw [hc, ha]; rfl)
  simp [beginsWith, ht, beginsWith.go, hne]

/-- All bytes of a run of name characters are bytes of names. -/
theorem isLabelByte_of_mem_nameTail {s : Bytes} : ∀ a ∈ s.take (nameTail s), isLabelByte a = true := by
  have htail : ∀ {b : UInt8}, Utf8.isTail b = true → isLabelByte b = true := fun {b} hb => by
    simp only [Utf8.isTail, Bool.and_eq_true, decide_eq_true_eq] at hb
    simp only [isLabelByte]
    grind
  fun_induction nameTail s with
  | case2 a rest h ih =>
    have ha : isLabelByte a = true := by
      simp only [Bool.or_eq_true] at h
      simp [isLabelByte, h]
    simpa [ha] using ih
  | case4 a h b rest h' ih =>
    simp only [isWidePair, Bool.and_eq_true, decide_eq_true_eq] at h'
    have ha : isLabelByte a = true := by simp only [isLabelByte]; grind
    simpa [ha, htail h'.1.2] using ih
  | case6 a h b h' c rest h'' ih =>
    simp only [isWideTriple, Bool.and_eq_true, decide_eq_true_eq] at h''
    obtain ⟨⟨⟨⟨hlow, -⟩, hadmits⟩, hc⟩, -⟩ := h''
    have ha : isLabelByte a = true := by simp only [isLabelByte]; grind
    have hb : isLabelByte b = true := by
      simp only [Utf8.admits, Utf8.isTail] at hadmits
      simp only [isLabelByte]
      grind
    simpa [ha, hb, htail hc] using ih
  | _ => simp

/-- All bytes of a name are bytes of names. -/
theorem isLabelByte_of_mem_nameLength {s : Bytes} : ∀ a ∈ s.take (nameLength s), isLabelByte a = true := by
  cases s with
  | nil => simp [nameLength]
  | cons a s =>
    rw [nameLength]
    split
    · simp
    · exact isLabelByte_of_mem_nameTail

theorem isLabelByte_of_mem {s : Bytes} (hs : IsName s) : ∀ a ∈ s, isLabelByte a = true := by
  have hall := isLabelByte_of_mem_nameLength (s := s)
  rw [hs.2, List.take_length] at hall
  exact hall

/-- No blank character may stand in a name. -/
theorem beginsToken_name {w : Bytes} (h : nameLength w ≠ 0) : BeginsToken w := by
  obtain ⟨a, rest, rfl, hl⟩ | ⟨a, b, rest, rfl, hp⟩ | ⟨a, b, c, rest, rfl, ht⟩ := nameLength_cases h
  · exact beginsToken_solid (isSolid_letter hl)
  · simp only [isWidePair, Bool.and_eq_true, decide_eq_true_eq, Bool.not_eq_true'] at hp
    obtain ⟨⟨⟨hlow, hhigh⟩, -⟩, hblank⟩ := hp
    have h1 : ((9 ≤ a && a ≤ 13) || a == 32) = false := by grind
    have h3 : ∀ c, isBlankTriple a b c = false := by
      simp only [isBlankTriple]; grind
    refine ⟨?_, commentLength_of_ne (by grind) (by grind), atClosingTag_of_ne (by grind)⟩
    cases rest <;> simp [blankLength, h1, hblank, h3]
  · simp only [isWideTriple, Bool.and_eq_true, decide_eq_true_eq, Bool.not_eq_true'] at ht
    obtain ⟨⟨⟨⟨hlow, hhigh⟩, -⟩, -⟩, hblank⟩ := ht
    have h1 : ((9 ≤ a && a ≤ 13) || a == 32) = false := by grind
    have h2 : (a == 0xC2) = false := by grind
    refine ⟨?_, commentLength_of_ne (by grind) (by grind), atClosingTag_of_ne (by grind)⟩
    simp [blankLength, h1, h2, hblank]

theorem gapLength_space {a : UInt8} {rest : Bytes} {attributes : Bool} (h : isSpace a = true) :
    gapLength attributes (a :: rest) = 1 := by
  have h63 : a ≠ 63 := by rintro rfl; exact absurd h (by decide)
  have hi : interpolationLength (a :: rest) = 0 := by
    simp [interpolationLength, atClosingTag_of_ne h63]
  have hb : blankLength (a :: rest) = 1 := by
    simp only [isSpace] at h
    simp [blankLength, h]
  simp [gapLength, hi, triviumLength, hb]

theorem gaps_space {a : UInt8} {rest : Bytes} (h : isSpace a = true) :
    gaps (a :: rest) = gaps rest + 1 := by
  simp [gaps, runLength, gapLength_space h]

theorem gapsBeforeAttributes_space {a : UInt8} {rest : Bytes} (h : isSpace a = true) :
    gapsBeforeAttributes (a :: rest) = gapsBeforeAttributes rest + 1 := by
  simp [gapsBeforeAttributes, runLength, gapLength_space h]

/-! ## Names in front of gaps -/

/-- Bytes that are passed over in front of every token. -/
def Passed (g : Bytes) : Prop := ∀ ⦃w : Bytes⦄, BeginsToken w → gaps (g ++ w) = g.length

/-- Bytes that are passed over in front of every token, also behind what may be the end of a
statement. -/
structure PassedBehind (g : Bytes) : Prop where
  passed : Passed g
  goesOn : ∀ ⦃w : Bytes⦄, BeginsToken w → gapsBeforeEnd 0 true (g ++ w) = (g.length, false)

theorem passed_nil : Passed [] := fun _ hw => hw.gaps

theorem passedBehind_nil : PassedBehind [] := ⟨passed_nil, fun _ hw => hw.gapsBeforeEnd true⟩

theorem nameTail_self {s : Bytes} (hs : IsName s) : nameTail s = s.length := by
  obtain ⟨hne, hlength⟩ := hs
  obtain ⟨a, s, rfl⟩ := List.exists_cons_of_ne_nil hne
  rw [nameLength] at hlength
  split at hlength
  · simp at hlength
  · exact hlength

/-- A run of name characters goes on with those that follow it. -/
theorem nameTail_add {s : Bytes} (hs : nameTail s = s.length) (u : Bytes) :
    nameTail (s ++ u) = s.length + nameTail u := by
  fun_induction nameTail s with
  | case1 => simp
  | case2 a rest h ih =>
    have hrest := ih (by simpa using hs)
    rw [List.cons_append, nameTail.eq_def]
    simp only [h, if_true, hrest, List.length_cons]
    omega
  | case4 a h b rest h' ih =>
    have hrest := ih (by simpa using hs)
    rw [List.cons_append, List.cons_append, nameTail.eq_def]
    simp only [h, h', if_true, hrest, List.length_cons, Bool.false_eq_true, if_false]
    omega
  | case6 a h b h' c rest h'' ih =>
    have hrest := ih (by simpa using hs)
    rw [List.cons_append, List.cons_append, List.cons_append, nameTail.eq_def]
    simp only [h, h', h'', if_true, hrest, List.length_cons, Bool.false_eq_true, if_false]
    omega
  | _ => simp at hs

theorem nameLength_add {s : Bytes} (hs : IsName s) (u : Bytes) :
    nameLength (s ++ u) = s.length + nameTail u := by
  have htail := nameTail_add (nameTail_self hs) u
  obtain ⟨hne, hlength⟩ := hs
  obtain ⟨a, s, rfl⟩ := List.exists_cons_of_ne_nil hne
  rw [nameLength] at hlength
  split at hlength
  · simp at hlength
  · rename_i hdigit
    rw [List.cons_append, nameLength, if_neg hdigit]
    exact htail

theorem beginsToken_nameTail {w : Bytes} (h : nameTail w ≠ 0) : BeginsToken w := by
  cases w with
  | nil => exact beginsToken_nil
  | cons a rest =>
    by_cases hdigit : isDigit a = true
    · exact beginsToken_solid (isSolid_digit hdigit)
    · apply beginsToken_name
      rw [nameLength, if_neg hdigit]
      exact h

/-- No name goes on behind a gap. -/
theorem nameTail_behind {g w : Bytes} (hg : Passed g) (hw : BeginsToken w)
    (h : nameTail w = 0) : nameTail (g ++ w) = 0 := by
  by_cases hne : nameTail (g ++ w) = 0
  · exact hne
  · have hgaps := hg hw
    rw [(beginsToken_nameTail hne).gaps] at hgaps
    obtain rfl : g = [] := List.length_eq_zero_iff.1 hgaps.symm
    exact h

/-! ## Numbers -/

/-- Digits never are the sign that groups them. -/
theorem isDigit_ne_underscore {a : UInt8} (h : isDigit a = true) : (a == 95) = false :=
  beq_eq_false_of_class h

theorem digitGroups_boundary {digit : UInt8 → Bool} (hdigit : ∀ b, digit b = true → isDigit b = true) :
    ∀ {u : Bytes}, Boundary u → digitGroups digit u = 0
  | [], _ => rfl
  | [a], h => by
    have hd : digit a = false := by
      have := (isLabelByte_eq_false (h a (by simp))).2.1
      grind
    simp [digitGroups, hd]
  | a :: b :: rest, h => by
    obtain ⟨hl, hd, -⟩ := isLabelByte_eq_false (h a (by simp))
    have hd' : digit a = false := by grind
    have h95 : (a == 95) = false := beq_eq_false_of_class hl
    simp [digitGroups, hd', h95]

theorem digitGroups_append {s u : Bytes} (hs : ∀ b ∈ s, isDigit b = true)
    (hu : digitGroups isDigit u = 0) : digitGroups isDigit (s ++ u) = s.length := by
  induction s with
  | nil => simpa using hu
  | cons a s ih =>
    have ha := hs a (by simp)
    have ih' := ih fun b hb => hs b (by simp [hb])
    cases h : s ++ u with
    | nil =>
      have h0 : s = [] ∧ u = [] := by simpa using h
      simp [h0, digitGroups, ha]
    | cons b rest =>
      rw [List.cons_append, h, digitGroups, if_pos ha, ← h, ih', List.length_cons]

theorem digitGroups_le {digit : UInt8 → Bool} {s u : Bytes} (hs : ∀ b ∈ s, isDigit b = true)
    (hu : digitGroups digit u = 0) : digitGroups digit (s ++ u) ≤ s.length := by
  induction s with
  | nil => simp [hu]
  | cons a s ih =>
    have h95 := isDigit_ne_underscore (hs a (by simp))
    have ih' := ih fun b hb => hs b (by simp [hb])
    cases h : s ++ u with
    | nil =>
      rw [List.cons_append, h, digitGroups]
      split <;> simp
    | cons b rest =>
      rw [List.cons_append, h, digitGroups, h95]
      rw [h] at ih'
      split
      · simpa using ih'
      · simp

theorem isOctalDigit_isDigit (b : UInt8) (h : isOctalDigit b = true) : isDigit b = true := by
  simp only [isOctalDigit, isDigit] at h ⊢
  grind

/-- A whole number without leading zeros in front of a byte that does not go it on. -/
theorem integerLength_digits {s u : Bytes} (hne : s ≠ []) (hs : ∀ b ∈ s, isDigit b = true)
    (h0 : s.head? = some 48 → s = [48]) (hu : Boundary u) : integerLength (s ++ u) = s.length := by
  obtain ⟨a, s, rfl⟩ := List.exists_cons_of_ne_nil hne
  by_cases ha : a = 48
  · subst ha
    obtain rfl : s = [] := by simpa using h0 rfl
    cases u with
    | nil => rfl
    | cons b u =>
      obtain ⟨hl, -, -⟩ := isLabelByte_eq_false (hu b (by simp))
      have hmark : ∀ m, isLetter m = true → (b == m) = false := fun m hm =>
        beq_eq_false_of_class (hl.trans (by simp [hm]))
      have hd := digitGroups_boundary isOctalDigit_isDigit hu
      simp [integerLength, hd, hmark 120 rfl, hmark 88 rfl, hmark 98 rfl, hmark 66 rfl,
        hmark 111 rfl, hmark 79 rfl]
  · have hd := digitGroups_append hs (digitGroups_boundary (fun _ h => h) hu)
    rw [List.cons_append] at hd ⊢
    simp [integerLength, ha, digitsLength, hs a (by simp), hd]

theorem exponentLength_boundary : ∀ {u : Bytes}, Boundary u → exponentLength u = 0
  | [], _ => rfl
  | a :: rest, h => by
    obtain ⟨hl, -, -⟩ := isLabelByte_eq_false (h a (by simp))
    have he : (a == 101) = false := beq_eq_false_of_class hl
    have hE : (a == 69) = false := beq_eq_false_of_class hl
    simp [exponentLength, he, hE]

/-- Digits without a point or an exponent are no float. -/
theorem floatLength_digits {s u : Bytes} (hs : ∀ b ∈ s, isDigit b = true) (hu : Boundary u)
    (hp : u.head? ≠ some 46) : floatLength (s ++ u) = 0 := by
  have hd := digitGroups_append hs (digitGroups_boundary (fun _ h => h) hu)
  unfold floatLength
  simp only [hd, List.drop_left]
  cases u with
  | nil => rfl
  | cons b u =>
    have hb : (b == 46) = false := by simpa using hp
    simp [hb, exponentLength_boundary hu]

/-- Digits with a point between them, and the exponent behind them. -/
theorem floatLength_point {w f x : Bytes} (hw : ∀ b ∈ w, isDigit b = true)
    (hf : ∀ b ∈ f, isDigit b = true) (hx : digitGroups isDigit x = 0) :
    floatLength (w ++ 46 :: (f ++ x)) = w.length + (f.length + 1) + exponentLength x := by
  have h46 : digitGroups isDigit (46 :: (f ++ x)) = 0 := by
    cases h : f ++ x <;> simp [digitGroups, isDigit]
  have hd := digitGroups_append hw h46
  have hd' := digitGroups_append hf hx
  unfold floatLength
  simp [hd, hd', -List.drop_drop]

theorem exponentLength_signed {sign : UInt8} {ds u : Bytes} (hsign : sign = 43 ∨ sign = 45)
    (hne : ds ≠ []) (hd : ∀ b ∈ ds, isDigit b = true) (hu : Boundary u) :
    exponentLength (69 :: sign :: (ds ++ u)) = ds.length + 2 := by
  obtain ⟨d, ds, rfl⟩ := List.exists_cons_of_ne_nil hne
  have hds := digitGroups_append hd (digitGroups_boundary (fun _ h => h) hu)
  rw [List.cons_append] at hds ⊢
  have hl : digitsLength isDigit (d :: (ds ++ u)) = ds.length + 1 := by
    simp [digitsLength, hd d (by simp), hds]
  have hs : (sign == 43 || sign == 45) = true := by grind
  simp [exponentLength, hs, hl]

/-- The digits in front of a point make no longer integer than themselves. -/
theorem integerLength_le {w x : Bytes} (hw : ∀ b ∈ w, isDigit b = true) :
    integerLength (w ++ 46 :: x) ≤ w.length := by
  have h46 : ∀ digit : UInt8 → Bool, (∀ b, digit b = true → isDigit b = true) →
      digitGroups digit (46 :: x) = 0 := fun digit h => by
    have : digit 46 = false := by
      have : isDigit 46 = false := rfl
      grind
    cases x <;> simp [digitGroups, this]
  cases w with
  | nil => simp [integerLength, digitsLength, isDigit]
  | cons a w =>
    have hw' : ∀ b ∈ w, isDigit b = true := fun b hb => hw b (by simp [hb])
    by_cases ha : a = 48
    · subst ha
      have ho := digitGroups_le hw' (h46 isOctalDigit isOctalDigit_isDigit)
      cases w with
      | nil => simpa [integerLength] using ho
      | cons b w =>
        have hb := hw b (by simp)
        have hmark : ∀ m, isDigit m = false → (b == m) = false := fun m hm =>
          beq_eq_false_of_class (hb.trans (by simp [hm]))
        simpa [integerLength, hmark 120 rfl, hmark 88 rfl, hmark 98 rfl, hmark 66 rfl,
          hmark 111 rfl, hmark 79 rfl] using ho
    · have hd := digitGroups_append hw (h46 isDigit fun _ h => h)
      rw [List.cons_append] at hd ⊢
      simp [integerLength, ha, digitsLength, hw a (by simp), hd]

end Lexical

/-! ## Strings -/

/-- Bytes that neither end a string nor escape anything are passed over. -/
theorem singleQuoted?_append {s u : Bytes} (hs : ∀ b ∈ s, b ≠ 0 ∧ b ≠ 39 ∧ b ≠ 92) :
    singleQuoted? (s ++ u) = (singleQuoted? u).map (· + s.length) := by
  induction s with
  | nil => simp
  | cons a s ih =>
    obtain ⟨h0, hq, hb⟩ := hs a (by simp)
    have ih' := ih fun b hb => hs b (by simp [hb])
    have hq' : (a == ascii '\'') = false := by simpa [ascii] using hq
    have hb' : (a == ascii '\\') = false := by simpa [ascii] using hb
    rw [List.cons_append, singleQuoted?.eq_def]
    simp only [beq_eq_false_iff_ne.2 h0, hq', hb', ih', Option.map_map, Bool.false_eq_true, if_false]
    congr 1

/-- A backslash takes the byte behind it along. -/
theorem singleQuoted?_escape {b : UInt8} {u : Bytes} (hb : b ≠ 0) :
    singleQuoted? (92 :: b :: u) = (singleQuoted? u).map (· + 2) := by
  rw [singleQuoted?.eq_def]
  simp [ascii, hb]

theorem singleQuoted?_quote (u : Bytes) : singleQuoted? (39 :: u) = some 1 := by
  rw [singleQuoted?.eq_def]
  simp [ascii]

/-! ## Reading tokens -/

namespace Reader

variable {c : Cursor}

theorem run_symbol_at {text : String} {n : Nat} (hg : gaps c.rest = 0)
    (hb : beginsWith text c.rest = true) (hl : text.length = n) :
    (symbol text).run c = some ((), c.past n) := by
  rw [run_symbol hg hb, hl, Nat.zero_add]

theorem run_identifier_at {s u : Bytes} (hr : c.rest = s ++ u) (hs : IsName s) (hu : Boundary u) :
    identifier.run c = some (.mk .name c.offset (c.offset + s.length) [], c.past s.length) := by
  have hn : nameLength c.rest = s.length := by rw [hr, nameLength_append hs hu]
  have h0 : s.length ≠ 0 := by simpa using hs.1
  have hgap := (beginsToken_name (by rw [hn]; exact h0)).gaps
  rw [run_identifier hgap hn h0, Nat.add_zero, Nat.zero_add]

/-- A name behind a gap. -/
theorem run_identifier_passed {g s u : Bytes} (hr : c.rest = g ++ (s ++ u)) (hg : Passed g)
    (hs : IsName s) (hu : nameTail u = 0) :
    identifier.run c = some (.mk .name (c.offset + g.length) (c.offset + g.length + s.length) [],
      c.past (g.length + s.length)) := by
  have hn : nameLength (s ++ u) = s.length := by rw [nameLength_add hs, hu, Nat.add_zero]
  have h0 : s.length ≠ 0 := by simpa using hs.1
  have hgap : gaps c.rest = g.length := by rw [hr, hg (beginsToken_name (by rw [hn]; exact h0))]
  exact run_identifier hgap (by rw [hr, List.drop_left]; exact hn) h0

/-- A token behind a gap is what stands behind an operand, also where a closing tag would end the
statement. -/
theorem run_behindOperand_passed {g w : Bytes} (hr : c.rest = g ++ w) (hg : PassedBehind g)
    (hw : BeginsToken w) : behindOperand.run c = some (w, c) := by
  unfold behindOperand
  rw [run_bind_some run_remaining]
  show (if c.tagEnds = true then _ else _ : Reader Bytes).run c = _
  rw [hr, hg.passed hw, hg.goesOn hw, List.drop_left]
  split <;> rfl

theorem run_thenIs_passed {g w : Bytes} (hr : c.rest = g ++ w) (hg : PassedBehind g)
    (hw : BeginsToken w) (text : String) :
    (thenIs text).run c = some (beginsWith text w, c) := by
  unfold thenIs
  rw [run_bind_some (run_behindOperand_passed hr hg hw)]
  rfl

theorem run_interpolations_nil {attributes : Bool} (h : BeginsToken c.rest) :
    (interpolations attributes).run c = some ([], c) := by
  unfold interpolations
  rw [run_bind_some run_turns, interpolations.go, run_bind_some run_remaining, h.trivia,
    run_bind_some (run_advance 0), Cursor.past_zero, run_bind_some run_remaining,
    h.interpolationLength]
  rfl

end Reader

end Php

end FacadeStubs
