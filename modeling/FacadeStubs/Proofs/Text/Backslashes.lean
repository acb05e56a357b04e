import FacadeStubs.Proofs.Text.Utf8

/-!
# Backslashes that escape

A backslash takes the sign behind it along, another backslash too. `escapesNext` says of a text whether its
last backslash is still to take something along, which its backslashes alone tell. A list of characters and
the list of their bytes agree on it (`escapesNext_encode`).
-/
namespace FacadeStubs

section
variable {α : Type} [DecidableEq α]

/-- Whether what is behind a text is escaped; `escaped` says so of the text itself. -/
def escapesNext (backslash : α) : Bool → List α → Bool
  | escaped, [] => escaped
  | escaped, a :: rest => escapesNext backslash (!escaped && a == backslash) rest

variable {backslash : α}

theorem escapesNext_append (escaped : Bool) (s t : List α) :
    escapesNext backslash escaped (s ++ t) = escapesNext backslash (escapesNext backslash escaped s) t := by
  induction s generalizing escaped with
  | nil => rfl
  | cons a s ih => exact ih _

theorem escapesNext_cons_of_ne {a : α} (h : a ≠ backslash) (escaped : Bool) (s : List α) :
    escapesNext backslash escaped (a :: s) = escapesNext backslash false s := by
  rw [escapesNext, beq_false_of_ne h, Bool.and_false]

/-- A backslash takes the next sign along, whichever it is. -/
theorem escapesNext_pair (a : α) (s : List α) :
    escapesNext backslash false (backslash :: a :: s) = escapesNext backslash false s := by
  simp [escapesNext]

/-- Nothing is escaped behind another sign than a backslash. -/
theorem escapesNext_concat {a : α} (h : a ≠ backslash) (escaped : Bool) (s : List α) :
    escapesNext backslash escaped (s ++ [a]) = false := by
  rw [escapesNext_append, escapesNext_cons_of_ne h, escapesNext]

theorem escapesNext_plain {s : List α} (h : ∀ a ∈ s, a ≠ backslash) : escapesNext backslash false s = false := by
  induction s with
  | nil => rfl
  | cons a s ih =>
    rw [escapesNext_cons_of_ne (h a List.mem_cons_self)]
    exact ih fun b hb => h b (List.mem_cons_of_mem a hb)

end

/-- The backslashes of a text are those of its bytes. -/
theorem escapesNext_encode (s : List Char) (escaped : Bool) :
    escapesNext 92 escaped (Utf8.encode s) = escapesNext '\\' escaped s := by
  induction s generalizing escaped with
  | nil => rfl
  | cons c s ih =>
    rw [Utf8.encode_cons, escapesNext_append, ih, escapesNext]
    congr 1
    by_cases hc : c = '\\'
    · subst hc
      rfl
    · have hbytes : ∀ b ∈ String.utf8EncodeChar c, b ≠ 92 := by
        rintro b hb rfl
        exact hc (Char.toNat_inj.1 (Utf8.toNat_of_mem_utf8EncodeChar hb (by decide)))
      obtain ⟨a, t, ht, -⟩ := Utf8.head_utf8EncodeChar c []
      rw [ht] at hbytes ⊢
      rw [escapesNext_cons_of_ne (hbytes a List.mem_cons_self), beq_false_of_ne hc, Bool.and_false]
      exact escapesNext_plain fun b hb => hbytes b (List.mem_cons_of_mem a hb)

end FacadeStubs
