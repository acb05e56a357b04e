import FacadeStubs.Proofs.Names.Resolution
import FacadeStubs.Proofs.Reader.Constants
import FacadeStubs.Proofs.Reader.Operands

/-!
# Names as the grammar has them

The analysis cuts a name at its first backslash, whatever the grammar reads as the first part of the
name. Where the namespace and the imports are names themselves this makes no difference: every name of
the grammar stands for something that is a name of the grammar again, behind a backslash.

* `IsWritten`, `IsSpelled`: a name behind a backslash, and any name.
* `encode_lowered`, `isName_lower`: letter case is nothing to a name.
* `segments_cut`: what stands before a backslash, if it is a name, is the first part of the whole name.
* `isWritten_resolve`: what a name stands for in an ordinary scope.
-/
namespace FacadeStubs

open Php Lexical

/-! ## Letter case -/

/-- A byte is its own small form, or both are ASCII letters. -/
theorem lowerByte_cases (b : UInt8) :
    lowerByte b = b ∨ (65 ≤ b ∧ b ≤ 90) ∧ 97 ≤ lowerByte b ∧ lowerByte b ≤ 122 := by
  have hall : ∀ n < 256, lowerByte (UInt8.ofNat n) = UInt8.ofNat n ∨
      (65 ≤ UInt8.ofNat n ∧ UInt8.ofNat n ≤ 90) ∧
        97 ≤ lowerByte (UInt8.ofNat n) ∧ lowerByte (UInt8.ofNat n) ≤ 122 := by decide +kernel
  have hb := hall b.toNat b.toNat_lt
  rwa [UInt8.ofNat_toNat] at hb

theorem lowerByte_ascii (b : UInt8) : lowerByte b = b ∨ lowerByte b < 128 ∧ b < 128 := by
  rcases lowerByte_cases b with h | h
  · exact .inl h
  · exact .inr (by grind)

theorem isDigit_lower (b : UInt8) : isDigit (lowerByte b) = isDigit b := by
  rcases lowerByte_cases b with h | h
  · rw [h]
  · simp only [isDigit]
    grind

theorem isLetter_lower (b : UInt8) : isLetter (lowerByte b) = isLetter b := by
  rcases lowerByte_cases b with h | h
  · rw [h]
  · simp only [isLetter]
    grind

/-- No byte of a wide character is an ASCII one. -/
theorem isWidePair_low {a b : UInt8} (h : a < 128 ∨ b < 128) : isWidePair a b = false := by
  simp only [isWidePair, Utf8.isTail]
  grind

theorem isWideTriple_low {a b c : UInt8} (h : a < 128 ∨ b < 128 ∨ c < 128) :
    isWideTriple a b c = false := by
  rcases h with h | h | h
  · exact isWideTriple_ascii h b c
  · have hadmits : Utf8.admits a b = false := by
      simp only [Utf8.admits, Utf8.isTail]
      grind
    simp [isWideTriple, hadmits]
  · have htail : Utf8.isTail c = false := by
      simp only [Utf8.isTail]
      grind
    simp [isWideTriple, htail]

theorem isWidePair_lower (a b : UInt8) : isWidePair (lowerByte a) (lowerByte b) = isWidePair a b := by
  have hlow : lowerByte a < 128 ∧ a < 128 ∨ lowerByte b < 128 ∧ b < 128 →
      isWidePair (lowerByte a) (lowerByte b) = isWidePair a b := by
    intro h
    rw [isWidePair_low (h.imp And.left And.left), isWidePair_low (h.imp And.right And.right)]
  rcases lowerByte_ascii a with ha | ha
  · rcases lowerByte_ascii b with hb | hb
    · rw [ha, hb]
    · exact hlow (.inr hb)
  · exact hlow (.inl ha)

theorem isWideTriple_lower (a b c : UInt8) :
    isWideTriple (lowerByte a) (lowerByte b) (lowerByte c) = isWideTriple a b c := by
  have hlow : lowerByte a < 128 ∧ a < 128 ∨ lowerByte b < 128 ∧ b < 128 ∨
      lowerByte c < 128 ∧ c < 128 →
      isWideTriple (lowerByte a) (lowerByte b) (lowerByte c) = isWideTriple a b c := by
    intro h
    rw [isWideTriple_low (h.imp And.left (Or.imp And.left And.left)),
      isWideTriple_low (h.imp And.right (Or.imp And.right And.right))]
  rcases lowerByte_ascii a with ha | ha
  · rcases lowerByte_ascii b with hb | hb
    · rcases lowerByte_ascii c with hc | hc
      · rw [ha, hb, hc]
      · exact hlow (.inr (.inr hc))
    · exact hlow (.inr (.inl hb))
  · exact hlow (.inl ha)

theorem nameTail_lower (s : Bytes) : nameTail (s.map lowerByte) = nameTail s := by
  fun_induction nameTail s with
  | case1 => rfl
  | case2 a rest h ih =>
    rw [List.map_cons, nameTail.eq_def]
    simp only [isLetter_lower, isDigit_lower, h, if_true, ih]
  | case3 a h =>
    rw [List.map_cons, List.map_nil, nameTail.eq_def]
    simp only [isLetter_lower, isDigit_lower, h, Bool.false_eq_true, if_false]
  | case4 a h b rest h' ih =>
    rw [List.map_cons, List.map_cons, nameTail.eq_def]
    simp only [isLetter_lower, isDigit_lower, isWidePair_lower, h, h', if_true, ih,
      Bool.false_eq_true, if_false]
  | case5 a h b h' =>
    rw [List.map_cons, List.map_cons, List.map_nil, nameTail.eq_def]
    simp only [isLetter_lower, isDigit_lower, isWidePair_lower, h, h', Bool.false_eq_true, if_false]
  | case6 a h b h' c rest h'' ih =>
    rw [List.map_cons, List.map_cons, List.map_cons, nameTail.eq_def]
    simp only [isLetter_lower, isDigit_lower, isWidePair_lower, isWideTriple_lower, h, h', h'',
      if_true, ih, Bool.false_eq_true, if_false]
  | case7 a h b h' c rest h'' =>
    rw [List.map_cons, List.map_cons, List.map_cons, nameTail.eq_def]
    simp only [isLetter_lower, isDigit_lower, isWidePair_lower, isWideTriple_lower, h, h', h'',
      Bool.false_eq_true, if_false]

theorem isName_lower {s : Bytes} : IsName (s.map lowerByte) ↔ IsName s := by
  cases s with
  | nil => simp
  | cons a s =>
    have htail : nameTail (lowerByte a :: s.map lowerByte) = nameTail (a :: s) :=
      nameTail_lower (a :: s)
    simp [IsName, nameLength, isDigit_lower, htail]

theorem utf8EncodeChar_toLower (c : Char) :
    String.utf8EncodeChar c.toLower = (String.utf8EncodeChar c).map lowerByte := by
  by_cases hupper : 65 ≤ c.val ∧ c.val ≤ 90
  · have hall : ∀ n < 91, 65 ≤ n → String.utf8EncodeChar (Char.ofNat n).toLower =
        (String.utf8EncodeChar (Char.ofNat n)).map lowerByte := by decide
    have hc := hall c.toNat (Nat.lt_succ_of_le hupper.2) hupper.1
    rwa [Char.ofNat_toNat] at hc
  · have hsame : c.toLower = c := dif_neg hupper
    have hfixed : ∀ b ∈ String.utf8EncodeChar c, lowerByte b = b := by
      intro b hb
      rcases lowerByte_cases b with h | h
      · exact h
      · have hnat : c.val.toNat = b.toNat := Utf8.toNat_of_mem_utf8EncodeChar hb (by grind)
        refine absurd ⟨?_, ?_⟩ hupper
        · rw [UInt32.le_iff_toNat_le, hnat]
          exact h.1.1
        · rw [UInt32.le_iff_toNat_le, hnat]
          exact h.1.2
    rw [hsame]
    conv_lhs => rw [← List.map_id (String.utf8EncodeChar c)]
    exact List.map_congr_left fun b hb => (hfixed b hb).symm

theorem encode_lowered (l : List Char) : Utf8.encode (lowered l) = (Utf8.encode l).map lowerByte := by
  induction l with
  | nil => rfl
  | cons c l ih =>
    show Utf8.encode (c.toLower :: lowered l) = _
    rw [Utf8.encode_cons, Utf8.encode_cons, List.map_append, ← ih, utf8EncodeChar_toLower]

/-! ## Written names -/

/-- A class name as it may stand behind a backslash: names with backslashes between them, with gaps
in front of each, and no blank at the end. -/
structure IsWritten (c : String) : Prop where
  solid : Solid ('\\' :: c.toList)
  bytes : ∃ k s r, Passed k ∧ IsName s ∧ Segments r ∧ Utf8.bytesOf c = k ++ (s ++ r)

/-- A class name of the grammar: a written one behind a backslash, or one that begins with a name. -/
inductive IsSpelled : String → Prop
  | rooted {c : String} : IsWritten c → IsSpelled ("\\" ++ c)
  | relative {c : String} {s r : Bytes} : Solid c.toList → IsName s → Segments r →
      Utf8.bytesOf c = s ++ r → IsSpelled c

/-- A scope whose namespace and imports are names. -/
structure NameScope.IsOrdinary (scope : NameScope) : Prop where
  namespaceName : ∀ ns ∈ scope.namespaceName, IsWritten ns
  aliases : ∀ entry ∈ scope.imports, IsName (Utf8.bytesOf entry.1)
  imports : ∀ entry ∈ scope.imports, IsWritten entry.2

theorem solid_behind {t u : List Char} (h : Solid (t ++ '\\' :: u)) : Solid ('\\' :: u) := by
  obtain ⟨c, hc, hblank⟩ := h.ends
  refine ⟨⟨'\\', rfl, by decide⟩, c, ?_, hblank⟩
  rwa [List.getLast?_append_of_ne_nil _ (by simp)] at hc

theorem solid_rooted {t : List Char} (h : Solid t) : Solid ('\\' :: t) := by
  have hroot : Solid ['\\'] := solid_mark (by decide)
  exact hroot.append h []

theorem isWritten_relative {c : String} {s r : Bytes} (hc : Solid c.toList) (hs : IsName s)
    (hr : Segments r) (hbytes : Utf8.bytesOf c = s ++ r) : IsWritten c :=
  ⟨solid_rooted hc, [], s, r, passed_nil, hs, hr, hbytes⟩

/-- A name below a name. -/
theorem IsWritten.below {c c' : String} (h : IsWritten c) (h' : IsWritten c') :
    IsWritten (c ++ "\\" ++ c') := by
  obtain ⟨k, s, r, hk, hs, hr, hbytes⟩ := h.bytes
  obtain ⟨k', s', r', hk', hs', hr', hbytes'⟩ := h'.bytes
  constructor
  · have hboth := h.solid.append h'.solid []
    simpa using hboth
  · refine ⟨k, s, r ++ ([] ++ 92 :: (k' ++ (s' ++ r'))), hk, hs, ?_, ?_⟩
    · exact hr.append (.cons passedBehind_nil hk' hs' hr')
    · have hroot : Utf8.bytesOf "\\" = [92] := rfl
      rw [Utf8.bytesOf_append, Utf8.bytesOf_append, hbytes, hbytes', hroot]
      simp

/-! ## What names stand for -/

/-- No gap that is passed over begins with a backslash. -/
theorem segments_root {v : Bytes} (h : Segments (92 :: v)) :
    ∃ k s r, Passed k ∧ IsName s ∧ Segments r ∧ v = k ++ (s ++ r) := by
  generalize hw : (92 :: v : Bytes) = w at h
  cases h with
  | nil => cases hw
  | @cons g k s r hg hk hs hr =>
    cases g with
    | nil =>
      obtain ⟨-, rfl⟩ := List.cons.inj hw
      exact ⟨k, s, r, hk, hs, hr, rfl⟩
    | cons a g =>
      obtain ⟨rfl, -⟩ := List.cons.inj hw
      have hpassed := hg.passed beginsToken_nil
      rw [List.append_nil, (beginsToken_solid rfl).gaps] at hpassed
      cases hpassed

/-- If what stands before a backslash is a name, it is the first part of the whole name. -/
theorem segments_cut {s r w v : Bytes} (hs : IsName s) (hr : Segments r) (hw : IsName w)
    (h : s ++ r = w ++ 92 :: v) :
    ∃ k s' r', Passed k ∧ IsName s' ∧ Segments r' ∧ v = k ++ (s' ++ r') := by
  have hwhole : nameLength (s ++ r) = s.length := by
    have htail : nameTail (r ++ []) = 0 := hr.nameTail (nameTail_boundary boundary_nil)
    rw [List.append_nil] at htail
    rw [nameLength_add hs, htail, Nat.add_zero]
  have hlength : s.length = w.length := by
    rw [← hwhole, h]
    exact nameLength_append hw (boundary_cons rfl)
  obtain ⟨rfl, rfl⟩ := List.append_inj h hlength
  exact segments_root hr

section
variable {scope : NameScope} {c : String}

theorem isWritten_qualify (h : scope.IsOrdinary) (hc : IsWritten c) :
    IsWritten (scope.qualify c) := by
  unfold NameScope.qualify
  split
  · rename_i ns hns
    exact (h.namespaceName ns hns).below hc
  · exact hc

/-- An alias is found by a name, and what it was given to is a name. -/
theorem isWritten_imported {short : List Char} {full : String} (h : scope.IsOrdinary)
    (hfound : scope.imported? short = some full) :
    IsName (Utf8.encode short) ∧ IsWritten full := by
  obtain ⟨entry, hentry, rfl⟩ := Option.map_eq_some_iff.1 hfound
  have hmem := List.mem_of_find?_eq_some hentry
  have halias := List.find?_some hentry
  refine ⟨?_, h.imports entry hmem⟩
  have hname := h.aliases entry hmem
  rw [beq_iff_eq.1 halias, Utf8.bytesOf_ofList, encode_lowered] at hname
  exact isName_lower.1 hname

/-- Behind a name and a backslash a name goes on with a written one. -/
theorem isWritten_behind {s r : Bytes} {first rest : List Char} (hc : Solid c.toList) (hs : IsName s)
    (hr : Segments r) (hbytes : Utf8.bytesOf c = s ++ r) (hcut : c.toList = first ++ '\\' :: rest)
    (hfirst : IsName (Utf8.encode first)) : IsWritten (String.ofList rest) := by
  constructor
  · rw [String.toList_ofList]
    exact solid_behind (hcut ▸ hc)
  · have hparts : s ++ r = Utf8.encode first ++ 92 :: Utf8.encode rest := by
      have hroot : Utf8.encode ('\\' :: rest) = 92 :: Utf8.encode rest := rfl
      rw [← hbytes, Utf8.bytesOf, hcut, Utf8.encode_append, hroot]
    rw [Utf8.bytesOf_ofList]
    exact segments_cut hs hr hfirst hparts

/-- What a name stands for in an ordinary scope is a name again. -/
theorem isWritten_resolve (h : scope.IsOrdinary) (hc : IsSpelled c) :
    IsWritten (scope.resolve c) := by
  cases hc with
  | rooted hc =>
    rw [resolve_absolute scope hc.solid]
    exact hc
  | @relative _ s r hsolid hs hr hbytes =>
    have htrim : trimBlanks c.toList = c.toList := trimBlanks_solid hsolid
    rcases UseSyntax.name_cases c.toList with ⟨rest, hcut⟩ | ⟨word, rest, hcut, hword⟩ |
      ⟨first, rest, hcut, hname⟩
    · have hroot : s ++ r = 92 :: Utf8.encode rest := by
        rw [← hbytes, Utf8.bytesOf, hcut]
        rfl
      obtain ⟨a, s, rfl⟩ := List.exists_cons_of_ne_nil hs.1
      obtain ⟨rfl, -⟩ := List.cons.inj hroot
      have hlabel := isLabelByte_of_mem hs 92 List.mem_cons_self
      cases hlabel
    · have hnamespace : IsName (Utf8.bytesOf "namespace") := by decide +kernel
      have hkeyword : IsName (Utf8.encode word) := by
        rw [← isName_lower, ← encode_lowered, hword]
        exact hnamespace
      rw [UseSyntax.resolve_relative scope (htrim.trans hcut) hword]
      exact isWritten_qualify h (isWritten_behind hsolid hs hr hbytes hcut hkeyword)
    · rw [UseSyntax.resolve_ordinary scope (htrim.trans hcut) hname]
      cases hfound : scope.imported? first with
      | none =>
        rw [← hcut, String.ofList_toList]
        exact isWritten_qualify h (isWritten_relative hsolid hs hr hbytes)
      | some full =>
        obtain ⟨hfirst, hfull⟩ := isWritten_imported h hfound
        cases rest with
        | nil => simpa using hfull
        | cons b rest =>
          obtain rfl := hname.rest_begins b rfl
          have hjoin : full ++ String.ofList ('\\' :: rest) = full ++ "\\" ++ String.ofList rest := by
            rw [String.append_assoc, String.ofList_cons]
            rfl
          show IsWritten (full ++ String.ofList ('\\' :: rest))
          rw [hjoin]
          exact hfull.below (isWritten_behind hsolid hs hr hbytes hcut hfirst)

end

end FacadeStubs
