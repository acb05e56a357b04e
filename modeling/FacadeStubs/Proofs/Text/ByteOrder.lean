import FacadeStubs.Proofs.Text.Utf8
import Mathlib.Data.String.Basic
import Mathlib.Tactic.SplitIfs

/-!
# The order of encoded texts

Strings are compared character by character and byte strings byte by byte. Both orders agree: the
encoding of a smaller character has the smaller byte where the two encodings first differ.

* `utf8EncodeChar_lt`: for single characters, whatever follows them;
* `bytesOf_lt_iff`, `bytesOf_le_iff`: for strings.
-/
namespace FacadeStubs.Utf8

/-- Numbers are compared by their last digit when the digits before it are the same. -/
theorem digit_lt_or {n m : Nat} (h : n < m) :
    n / 64 < m / 64 ∨ n / 64 = m / 64 ∧ n % 64 < m % 64 := by
  omega

theorem utf8EncodeChar_lt {c d : Char} (h : c < d) (u v : Bytes) :
    String.utf8EncodeChar c ++ u < String.utf8EncodeChar d ++ v := by
  have hlt : c.val.toNat < d.val.toNat := h
  have hbound : d.val.toNat < 0x110000 :=
    d.valid.elim (fun h => Nat.lt_trans h (by decide)) And.right
  generalize hn : c.val.toNat = n at hlt
  generalize hm : d.val.toNat = m at hlt hbound
  -- The digits to the base 64, from the last one to the first.
  have hpairs : ∀ k, k / 64 / 64 = k / 4096 ∧ k / 4096 / 64 = k / 262144 := fun k =>
    ⟨Nat.div_div_eq_div_mul k 64 64, Nat.div_div_eq_div_mul k 4096 64⟩
  have hlow := digit_lt_or hlt
  have hmiddle : n / 64 < m / 64 →
      n / 4096 < m / 4096 ∨ n / 4096 = m / 4096 ∧ n / 64 % 64 < m / 64 % 64 := by
    intro h
    have hdigit := digit_lt_or h
    rwa [(hpairs n).1, (hpairs m).1] at hdigit
  have hhigh : n / 4096 < m / 4096 →
      n / 262144 < m / 262144 ∨ n / 262144 = m / 262144 ∧ n / 4096 % 64 < m / 4096 % 64 := by
    intro h
    have hdigit := digit_lt_or h
    rwa [(hpairs n).2, (hpairs m).2] at hdigit
  simp only [String.utf8EncodeChar, hn, hm]
  split_ifs
  all_goals
    simp only [List.cons_append, List.nil_append, List.cons_lt_cons_iff, UInt8.lt_iff_toNat_lt,
      ← UInt8.toNat_inj, UInt8.toNat_ofNat']
    simp (disch := omega) only [Nat.mod_eq_of_lt]
    omega

theorem encode_lt : ∀ {a b : List Char}, a < b → encode a < encode b
  | _, [], h => absurd h (List.not_lt_nil _)
  | [], d :: b, _ => by
    obtain ⟨x, rest, hd⟩ := List.exists_cons_of_ne_nil (String.utf8EncodeChar_ne_nil (c := d))
    rw [encode_cons, hd]
    exact List.nil_lt_cons x _
  | c :: a, d :: b, h => by
    rw [encode_cons, encode_cons]
    rcases List.cons_lt_cons_iff.mp h with hlt | ⟨rfl, hlt⟩
    · exact utf8EncodeChar_lt hlt _ _
    · exact List.append_left_lt (encode_lt hlt)

/-- Strings are ordered as their bytes. -/
theorem bytesOf_lt_iff {a b : String} : bytesOf a < bytesOf b ↔ a < b := by
  have hmono : ∀ {a b : String}, a < b → bytesOf a < bytesOf b := fun h => encode_lt (String.lt_iff.mp h)
  constructor
  · intro h
    rcases lt_trichotomy a b with hlt | rfl | hlt
    · exact hlt
    · exact absurd h (List.lt_irrefl _)
    · exact absurd h (List.lt_asymm (hmono hlt))
  · exact hmono

theorem bytesOf_le_iff {a b : String} : bytesOf a ≤ bytesOf b ↔ a ≤ b := not_congr bytesOf_lt_iff

end FacadeStubs.Utf8
