import FacadeStubs.Proofs.Export.Entries
import FacadeStubs.Proofs.Reader.Arrays

/-!
# The lines of an exported array

The text of an array has a line for each entry, in which its key stands, and behind it its value: on the
same line, or on the next ones if the value is an array literal itself.

Results:
* `exists_linesText`: the lines of the entries make the text of an array that is read by its keys and
  values.
-/
namespace FacadeStubs.Export

open Php Lexical

/-- What stands in front of an entry: a new line and the blanks in front of the key. -/
def entryGap (indent : Nat) : Bytes := 10 :: (List.replicate indent 32 ++ [32, 32])

/-- What stands behind the last entry: a new line, and the blanks in front of the closing parenthesis. -/
def endGap (indent : Nat) : Bytes := 10 :: List.replicate indent 32

/-- The blanks between an arrow and a value. -/
def valueBlanks (indent : Nat) (isArray : Bool) : Bytes :=
  if isArray then 32 :: entryGap indent else [32]

theorem all_entryGap (indent : Nat) : (entryGap indent).all isSpace = true := by
  simp [entryGap, isSpace]

theorem isGap_entryGap (indent : Nat) : IsGap (entryGap indent) := isGap_spaces (all_entryGap indent)

theorem isGap_endGap (indent : Nat) : IsGap (endGap indent) :=
  isGap_spaces (by simp [endGap, isSpace])

theorem all_valueBlanks (indent : Nat) (isArray : Bool) :
    (valueBlanks indent isArray).all isSpace = true := by
  unfold valueBlanks
  split
  · exact (List.all_cons ..).trans (by rw [all_entryGap]; rfl)
  · rfl

theorem bytesOf_blanks (n : Nat) :
    Utf8.bytesOf (String.ofList (List.replicate n ' ')) = List.replicate n 32 := by
  have hascii : ∀ c ∈ List.replicate n ' ', c.toNat < 128 := by
    intro c hc
    rw [List.eq_of_mem_replicate hc]
    decide
  rw [Utf8.bytesOf_ofList, Utf8.encode_ascii hascii, List.map_replicate]
  rfl

theorem bytesOf_concat (texts : List String) :
    Utf8.bytesOf (joined "" texts) = texts.flatMap Utf8.bytesOf := by
  cases texts with
  | nil => rfl
  | cons t texts =>
    rw [Utf8.bytesOf_joined_cons]
    rfl

/-- A line with the key and the value of an entry. -/
structure IsLineOf (indent : Nat) (entry : ArrayKey × Slot) (l : ArrayLine) : Prop where
  key : l.key.bytes = Utf8.bytesOf entry.1.text
  blanks : l.blanks = valueBlanks indent entry.2.isArray
  value : ∃ t, entry.2.text = some t ∧ l.value.bytes = Utf8.bytesOf t

section
variable {indent : Nat}

/-- The line break behind an entry is one in front of the next. -/
theorem IsLineOf.exists_text {entry : ArrayKey × Slot} {l : ArrayLine} (h : IsLineOf indent entry l) :
    ∃ s, entryText? (String.ofList (List.replicate indent ' ')) entry = some s ∧
      10 :: Utf8.bytesOf s = entryGap indent ++ l.bytes ++ [44, 10] := by
  obtain ⟨t, ht, hvalue⟩ := h.value
  have hblanks : Utf8.bytesOf "  " = [32, 32] := rfl
  have harrow : Utf8.bytesOf " => " = [32, 61, 62, 32] := rfl
  have hbreak : Utf8.bytesOf " => \n" = [32, 61, 62, 32, 10] := rfl
  have hcomma : Utf8.bytesOf ",\n" = [44, 10] := rfl
  have hgap : Utf8.bytesOf (if entry.2.isArray then
      " => \n" ++ String.ofList (List.replicate indent ' ') ++ "  " else " => ") =
      32 :: 61 :: 62 :: valueBlanks indent entry.2.isArray := by
    unfold valueBlanks entryGap
    split
    · simp [Utf8.bytesOf_append, hbreak, bytesOf_blanks, hblanks]
    · exact harrow
  refine ⟨_, by rw [entryText?, ht]; rfl, ?_⟩
  simp only [Utf8.bytesOf_append, bytesOf_blanks, hblanks, hgap, hcomma]
  simp [entryGap, ArrayLine.bytes, h.key, h.blanks, hvalue]

theorem exists_texts {entries : List (ArrayKey × Slot)} {lines : List ArrayLine}
    (h : List.Forall₂ (IsLineOf indent) entries lines) :
    ∃ texts, entries.mapM (entryText? (String.ofList (List.replicate indent ' '))) = some texts ∧
      ∀ u, 10 :: (texts.flatMap Utf8.bytesOf ++ u) = lineBytes (entryGap indent) lines ++ 10 :: u := by
  induction h with
  | nil => exact ⟨[], rfl, fun u => rfl⟩
  | @cons entry l entries lines hline _ ih =>
    obtain ⟨s, hs, hbytes⟩ := hline.exists_text
    obtain ⟨texts, htexts, hrest⟩ := ih
    refine ⟨s :: texts, by rw [List.mapM_cons, hs, htexts]; rfl, fun u => ?_⟩
    rw [List.flatMap_cons, List.append_assoc, ← List.cons_append, hbytes]
    have hnext := hrest u
    simp only [lineBytes, List.flatMap_cons, List.append_assoc] at hnext ⊢
    rw [← hnext]
    rfl

/-- The lines of its entries make the text of an array. -/
theorem exists_linesText {entries : List (ArrayKey × Slot)} {lines : List ArrayLine}
    (h : List.Forall₂ (IsLineOf indent) entries lines) :
    ∃ texts, entries.mapM (entryText? (String.ofList (List.replicate indent ' '))) = some texts ∧
      Utf8.bytesOf ("array (\n" ++ joined "" texts ++ String.ofList (List.replicate indent ' ') ++ ")") =
        arrayBytes (entryGap indent) (endGap indent) lines := by
  obtain ⟨texts, htexts, hbytes⟩ := exists_texts h
  have hopen : Utf8.bytesOf "array (\n" = [97, 114, 114, 97, 121] ++ ([32] ++ [40, 10]) := rfl
  have hclose : Utf8.bytesOf ")" = [41] := rfl
  refine ⟨texts, htexts, ?_⟩
  have hlines := hbytes (List.replicate indent 32 ++ [41])
  simp only [Utf8.bytesOf_append, bytesOf_concat, bytesOf_blanks, hopen, hclose, arrayBytes, endGap,
    List.append_assoc, List.cons_append, List.nil_append, ← hlines]

end

end FacadeStubs.Export
