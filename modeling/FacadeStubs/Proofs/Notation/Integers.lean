import FacadeStubs.Php.Notation
import FacadeStubs.Proofs.Decimal.Positional

/-!
# Integers in source

An integer is written in one of five forms: decimal, or in base 16, 8 or 2 behind a mark. Underscores may
stand among its digits. `IntegerForm.Writes` says what a text writes without saying how it is read.

* `integer?_digits`: the digits are read in the base of their form;
* `integer?_exact`: the text of an integer is read as the number that its digits stand for, if that is in
  the range of 64 bits, and as nothing else.
-/
namespace FacadeStubs.Php.Notation

open Decimal

/-- The forms of integers. -/
inductive IntegerForm where
  | decimal
  | hexadecimal
  /-- Octal behind a mark of its own. -/
  | octal
  /-- Octal behind a mere zero. -/
  | bareOctal
  | binary
  deriving DecidableEq

namespace IntegerForm

def base : IntegerForm → Nat
  | decimal => 10
  | hexadecimal => 16
  | octal => 8
  | bareOctal => 8
  | binary => 2

/-- The marks that may stand in front of the digits. -/
def marks : IntegerForm → List (List Char)
  | decimal => [[]]
  | hexadecimal => [['0', 'x'], ['0', 'X']]
  | octal => [['0', 'o'], ['0', 'O']]
  | bareOctal => [['0']]
  | binary => [['0', 'b'], ['0', 'B']]

/-- A text writes a run of digits in a form: the mark, and the digits with any underscores among
them. A decimal number has no leading zero. -/
structure Writes (f : IntegerForm) (digits text : List Char) : Prop where
  nonempty : digits ≠ []
  inBase : ∀ c ∈ digits, IsDigitIn f.base c
  unpadded : f = decimal → digits.head? = some '0' → digits = ['0']
  written : ∃ mark ∈ f.marks, ∃ spaced, text = mark ++ spaced ∧ spaced.filter (· != '_') = digits

theorem base_le (f : IntegerForm) : f.base ≤ 16 := by cases f <;> decide

theorem isDigitIn_lowered {f : IntegerForm} {digits : List Char}
    (h : ∀ c ∈ digits, IsDigitIn f.base c) : ∀ c ∈ lowered digits, IsDigitIn f.base c := by
  intro c hc
  obtain ⟨d, hd, rfl⟩ := List.mem_map.1 hc
  have hvalue := h d hd
  rwa [IsDigitIn, digitValue_toLower]

end IntegerForm

/-- Underscores in a text, and capitals, make no difference to its integer. -/
theorem integer?_congr {text text' : List Char}
    (h : lowered (text.filter (· != '_')) = lowered (text'.filter (· != '_'))) :
    integer? text = integer? text' := by
  unfold integer?
  rw [h]

/-- A decimal number is read in base 10: it begins with no zero that something follows. -/
theorem integer?_decimal {digits : List Char} (hplain : ∀ c ∈ digits, c ≠ '_')
    (hzero : digits.head? = some '0' → digits = ['0']) :
    integer? digits = readInt64? 10 (lowered digits) := by
  have hfilter : digits.filter (· != '_') = digits :=
    List.filter_eq_self.2 fun c hc => bne_iff_ne.2 (hplain c hc)
  have hhead : ∀ c rest, lowered digits ≠ '0' :: c :: rest := by
    intro c rest heq
    cases digits with
    | nil => cases heq
    | cons d digits =>
      obtain ⟨hd, hrest⟩ := List.cons.inj heq
      have hd0 : d = '0' := eq_of_toLower hd (by decide)
      have hsingle := hzero (by rw [hd0]; rfl)
      rw [(List.cons.inj hsingle).2] at hrest
      cases hrest
  unfold integer?
  dsimp only
  rw [hfilter]
  split
  case h_5 => rfl
  all_goals exact absurd ‹_› (hhead _ _)

/-- A number behind a zero is read in base 8 if it begins with an octal digit. -/
theorem integer?_bareOctal {d : Char} {digits : List Char} (hd : IsDigitIn 8 d)
    (hplain : ∀ c ∈ d :: digits, c ≠ '_') :
    integer? ('0' :: d :: digits) = readInt64? 8 (lowered (d :: digits)) := by
  have hfilter : ('0' :: d :: digits).filter (· != '_') = '0' :: d :: digits := by
    refine List.filter_eq_self.2 fun c hc => bne_iff_ne.2 ?_
    rcases List.mem_cons.1 hc with rfl | hc
    · decide
    · exact hplain c hc
  have hmark : ∀ m, ¬ IsDigitIn 8 m → d.toLower ≠ m := by
    rintro m hm rfl
    rw [IsDigitIn, digitValue_toLower] at hm
    exact hm hd
  have hlowered : lowered ('0' :: d :: digits) = '0' :: d.toLower :: lowered digits := rfl
  have hx := hmark 'x' (by decide)
  have hb := hmark 'b' (by decide)
  have ho := hmark 'o' (by decide)
  unfold integer?
  dsimp only
  rw [hfilter, hlowered]
  split
  · exact absurd (List.cons.inj (List.cons.inj ‹_›).2).1 hx
  · exact absurd (List.cons.inj (List.cons.inj ‹_›).2).1 hb
  · exact absurd (List.cons.inj (List.cons.inj ‹_›).2).1 ho
  · rename_i heq
    rw [← (List.cons.inj heq).2]
    rfl
  · rename_i hfour
    exact absurd rfl (hfour _ _)

/-- The digits of a text are read in the base of its form. -/
theorem integer?_digits {f : IntegerForm} {digits text : List Char} (h : f.Writes digits text) :
    integer? text = readInt64? f.base (lowered digits) := by
  obtain ⟨hne, hbase, hzero, mark, hmark, spaced, rfl, rfl⟩ := h
  have hplain : ∀ c ∈ spaced.filter (· != '_'), c ≠ '_' := fun c hc =>
    bne_iff_ne.1 (List.mem_filter.1 hc).2
  generalize hdigits : spaced.filter (· != '_') = digits at *
  have hspaced : ∀ m : List Char, (m ++ spaced).filter (· != '_') =
      m.filter (· != '_') ++ digits := fun m => by rw [List.filter_append, hdigits]
  cases f with
  | decimal =>
    obtain rfl := List.mem_singleton.1 hmark
    have hsame : integer? ([] ++ spaced) = integer? digits := integer?_congr <| by
      rw [hspaced, List.filter_nil, List.nil_append,
        List.filter_eq_self.2 fun c hc => bne_iff_ne.2 (hplain c hc)]
    rw [hsame]
    exact integer?_decimal hplain (hzero rfl)
  | bareOctal =>
    obtain rfl := List.mem_singleton.1 hmark
    obtain ⟨d, rest, rfl⟩ := List.exists_cons_of_ne_nil hne
    have hsame : integer? (['0'] ++ spaced) = integer? ('0' :: d :: rest) := integer?_congr <| by
      rw [hspaced, List.filter_cons_of_pos (by decide) (l := d :: rest),
        List.filter_eq_self.2 fun c hc => bne_iff_ne.2 (hplain c hc)]
      rfl
    rw [hsame]
    exact integer?_bareOctal (hbase d List.mem_cons_self) hplain
  | hexadecimal | octal | binary =>
    -- The mark decides which branch the reader takes.
    rcases List.mem_pair.1 hmark with rfl | rfl
    all_goals
      unfold integer?
      dsimp only
      rw [hspaced]
      rfl

/-- The text of an integer is read as the number that its digits stand for in the base of its form, and as
no other; and it is read exactly if this number is below two to the power of 63. -/
theorem integer?_exact {f : IntegerForm} {digits text : List Char} (h : f.Writes digits text) :
    (∀ i : Int64, integer? text = some i ↔ i.toInt = positional f.base digits) ∧
      ((integer? text).isSome ↔ positional f.base digits ≤ 2 ^ 63 - 1) := by
  have hne : lowered digits ≠ [] := fun hnil => h.nonempty (List.map_eq_nil_iff.1 hnil)
  have hbase := IntegerForm.isDigitIn_lowered h.inBase
  rw [integer?_digits h, ← positional_lowered]
  exact ⟨fun i => readInt64?_eq_some_iff f.base_le hne hbase,
    readInt64?_isSome_iff f.base_le hne hbase⟩

/-- Eight hexadecimal digits in capitals and small letters, behind a capital mark and with underscores. -/
theorem integer?_exact_hexadecimal :
    IntegerForm.hexadecimal.Writes "7fFF0001".toList "0X7f_FF__0001".toList ∧
      ∀ i : Int64, integer? "0X7f_FF__0001".toList = some i ↔ i.toInt = 2147418113 := by
  have hdigits : "7fFF0001".toList.all (fun c => IsDigitIn 16 c) = true := by decide
  have h : IntegerForm.hexadecimal.Writes "7fFF0001".toList "0X7f_FF__0001".toList :=
    { nonempty := by decide
      inBase := fun c hc => of_decide_eq_true (List.all_eq_true.1 hdigits c hc)
      unpadded := by decide
      written := ⟨['0', 'X'], by decide, "7f_FF__0001".toList, by decide, by decide⟩ }
  refine ⟨h, fun i => ?_⟩
  rw [(integer?_exact h).1 i]
  have hvalue : positional IntegerForm.hexadecimal.base "7fFF0001".toList = 2147418113 := by decide
  rw [hvalue]
  rfl

end FacadeStubs.Php.Notation
