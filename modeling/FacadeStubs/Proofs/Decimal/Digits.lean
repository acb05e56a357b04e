import FacadeStubs.Decimal.Integer

/-!
# Digits read back

Results:
* `readDigits?_toDigits`: the decimal digits of a number are read as the number.
* `int64?_toInt`: a 64-bit integer is the one of its value.
-/
namespace FacadeStubs.Decimal

theorem digitIn?_ten {c : Char} (h : c.isDigit = true) : digitIn? 10 c = some (c.toNat - 48) := by
  simp only [Char.isDigit, Bool.and_eq_true, decide_eq_true_eq] at h
  have hlow : '0' ≤ c := h.1
  have hhigh : c ≤ '9' := h.2
  have hnat : c.toNat ≤ 57 := UInt32.le_iff_toNat_le.1 h.2
  simp only [digitIn?, hlow, hhigh, decide_true, Bool.and_self, if_true]
  exact if_pos (by omega)

theorem readDigitsFrom?_eq {ds : List Char} (h : ∀ c ∈ ds, c.isDigit = true) (n : Nat) :
    readDigitsFrom? 10 n ds = some (Nat.ofDigitChars 10 ds n) := by
  induction ds generalizing n with
  | nil => rfl
  | cons c ds ih =>
    rw [readDigitsFrom?, digitIn?_ten (h c List.mem_cons_self)]
    refine (ih (fun d hd => h d (List.mem_cons_of_mem c hd)) _).trans ?_
    rw [Nat.mul_comm]
    rfl

/-- The digits of a number are read as the number. -/
theorem readDigits?_toDigits (n : Nat) : readDigits? 10 (Nat.toDigits 10 n) = some n := by
  have hdigits : ∀ c ∈ Nat.toDigits 10 n, c.isDigit = true := fun c hc =>
    Nat.isDigit_of_mem_toDigits (by decide) (by decide) hc
  rw [readDigits?, if_neg (by simp), readDigitsFrom?_eq hdigits,
    Nat.ofDigitChars_toDigits (by decide) (by decide)]

theorem int64?_toInt (i : Int64) : int64? i.toInt = some i := by
  have hlow : -9223372036854775808 ≤ i.toInt := i.le_toInt
  have hhigh : i.toInt < 9223372036854775808 := i.toInt_lt
  rw [int64?, if_pos (by unfold int64Bound; omega), Int64.ofInt_toInt]

end FacadeStubs.Decimal
