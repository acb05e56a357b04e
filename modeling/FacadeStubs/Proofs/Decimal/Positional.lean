import FacadeStubs.Proofs.Decimal.Digits
import FacadeStubs.Proofs.Text.Words
import Mathlib.Data.Nat.Digits.Lemmas

/-!
# Digits and the numbers they stand for

The value of a digit is its place among the digits, and a run of digits stands for the number that it
is in positional notation (`positional`). Neither is said in terms of the reader.

* `digitIn?_eq`: the reader takes exactly the digits of a base, with their values;
* `readDigits?_eq`: a run of digits is read as the number that it stands for;
* `readInt64?_eq_some_iff`, `readInt64?_isSome_iff`: a run of digits is read as a 64-bit integer if the
  number is in range, and then as this number.
-/
namespace FacadeStubs.Decimal

/-! ## Digits -/

/-- The digits of all bases up to 16, from zero on. -/
def digitSigns : List Char := "0123456789abcdef".toList

/-- The value of a digit, whose letter may be a capital; 16 for all other characters. -/
def digitValue (c : Char) : Nat := digitSigns.idxOf c.toLower

/-- Whether a character is a digit of a base. -/
def IsDigitIn (base : Nat) (c : Char) : Prop := digitValue c < base

instance (base : Nat) : DecidablePred (IsDigitIn base) := fun _ => Nat.decLt _ _

@[simp] theorem digitValue_toLower (c : Char) : digitValue c.toLower = digitValue c := by
  rw [digitValue, digitValue, toLower_toLower]

/-- Characters above ASCII are no digits. -/
theorem digitValue_of_wide {c : Char} (h : 128 ≤ c.toNat) : digitValue c = 16 := by
  have hsmall : digitSigns.all (fun d => d.toNat < 128) = true := by decide
  have hlower : c.toLower = c := dif_neg fun hupper => by
    have hle : c.toNat ≤ 90 := hupper.2
    omega
  have hnot : c ∉ digitSigns := fun hmem => by
    have hc : c.toNat < 128 := of_decide_eq_true (List.all_eq_true.1 hsmall c hmem)
    omega
  rw [digitValue, hlower, List.idxOf_eq_length hnot]
  decide

/-- The reader takes the digits of a base, with their values. -/
theorem digitIn?_eq {base : Nat} (hbase : base ≤ 16) (c : Char) :
    digitIn? base c = if IsDigitIn base c then some (digitValue c) else none := by
  by_cases hascii : c.toNat < 128
  · have hall : ∀ n < 128, ∀ base ≤ 16, digitIn? base (Char.ofNat n) =
        if IsDigitIn base (Char.ofNat n) then some (digitValue (Char.ofNat n)) else none := by
      decide +kernel
    have hc := hall c.toNat hascii base hbase
    rwa [Char.ofNat_toNat] at hc
  · have hvalue : digitValue c = 16 := digitValue_of_wide (by omega)
    have hrange : ∀ d : Char, d.toNat < 128 → ¬ c ≤ d := fun d hd hle => by
      have hnat : c.toNat ≤ d.toNat := UInt32.le_iff_toNat_le.1 hle
      omega
    have hnot : ¬ IsDigitIn base c := by
      unfold IsDigitIn
      omega
    rw [if_neg hnot]
    simp [digitIn?, hrange '9' (by decide), hrange 'f' (by decide), hrange 'F' (by decide)]

/-! ## Runs of digits -/

/-- The number that a run of digits stands for: the last digit counts ones, and each digit counts
`base` times as much as the one behind it. -/
def positional (base : Nat) (digits : List Char) : Nat :=
  Nat.ofDigits base (digits.reverse.map digitValue)

@[simp] theorem positional_nil (base : Nat) : positional base [] = 0 := rfl

theorem positional_cons (base : Nat) (c : Char) (digits : List Char) :
    positional base (c :: digits) = digitValue c * base ^ digits.length + positional base digits := by
  rw [positional, List.reverse_cons, List.map_append, Nat.ofDigits_append, List.map_singleton,
    Nat.ofDigits_singleton, List.length_map, List.length_reverse, positional]
  ring

/-- So many digits of a base stand for less than the base to the power of their number. -/
theorem positional_lt {base : Nat} (hbase : 1 < base) {digits : List Char}
    (h : ∀ c ∈ digits, IsDigitIn base c) : positional base digits < base ^ digits.length := by
  have hvalues : ∀ v ∈ digits.reverse.map digitValue, v < base := by
    intro v hv
    obtain ⟨c, hc, rfl⟩ := List.mem_map.1 hv
    exact h c (List.mem_reverse.1 hc)
  have hlt := Nat.ofDigits_lt_base_pow_length hbase hvalues
  rwa [List.length_map, List.length_reverse] at hlt

/-- Capital letters stand for the same. -/
theorem positional_lowered (base : Nat) (digits : List Char) :
    positional base (lowered digits) = positional base digits := by
  simp [positional, lowered, ← List.map_reverse, Function.comp_def]

/-- Digits behind a number go on with it. -/
theorem readDigitsFrom?_eq_positional {base : Nat} (hbase : base ≤ 16) {digits : List Char}
    (h : ∀ c ∈ digits, IsDigitIn base c) (n : Nat) :
    readDigitsFrom? base n digits = some (n * base ^ digits.length + positional base digits) := by
  induction digits generalizing n with
  | nil => simp [readDigitsFrom?]
  | cons c digits ih =>
    have hc : digitIn? base c = some (digitValue c) := by
      rw [digitIn?_eq hbase, if_pos (h c List.mem_cons_self)]
    rw [readDigitsFrom?, hc]
    dsimp only
    rw [ih fun d hd => h d (List.mem_cons_of_mem c hd), positional_cons, List.length_cons, pow_succ]
    congr 1
    ring

/-- A run of digits is read as the number that it stands for. -/
theorem readDigits?_eq {base : Nat} (hbase : base ≤ 16) {digits : List Char} (hne : digits ≠ [])
    (h : ∀ c ∈ digits, IsDigitIn base c) :
    readDigits? base digits = some (positional base digits) := by
  rw [readDigits?, if_neg (by simpa using hne), readDigitsFrom?_eq_positional hbase h, Nat.zero_mul,
    Nat.zero_add]

/-! ## Integers of 64 bits -/

theorem int64?_natCast_eq_some_iff {n : Nat} {i : Int64} : int64? n = some i ↔ i.toInt = n := by
  constructor
  · intro h
    unfold int64? int64Bound at h
    split at h
    · cases h
      exact Int64.toInt_ofInt_of_le (by omega) (by omega)
    · cases h
  · intro h
    rw [← h]
    exact int64?_toInt i

theorem int64?_natCast_isSome_iff {n : Nat} : (int64? n).isSome ↔ n ≤ 2 ^ 63 - 1 := by
  unfold int64? int64Bound
  split
  · simp only [Option.isSome_some, true_iff]
    omega
  · simp only [Option.isSome_none, Bool.false_eq_true, false_iff]
    omega

section
variable {base : Nat} {digits : List Char} (hbase : base ≤ 16) (hne : digits ≠ [])
  (h : ∀ c ∈ digits, IsDigitIn base c)
include hbase hne h

theorem readInt64?_eq_some_iff {i : Int64} :
    readInt64? base digits = some i ↔ i.toInt = positional base digits := by
  rw [readInt64?, readDigits?_eq hbase hne h, Option.bind_some]
  exact int64?_natCast_eq_some_iff

theorem readInt64?_isSome_iff :
    (readInt64? base digits).isSome ↔ positional base digits ≤ 2 ^ 63 - 1 := by
  rw [readInt64?, readDigits?_eq hbase hne h, Option.bind_some]
  exact int64?_natCast_isSome_iff

end

end FacadeStubs.Decimal
