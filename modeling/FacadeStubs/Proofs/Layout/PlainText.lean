import FacadeStubs.Php.Strings
import FacadeStubs.Proofs.Text.Backslashes
import Mathlib.Data.List.TakeWhile

/-!
# Plain text between double quotes

A text between double quotes is cut into pieces at its escape sequences, variables and expressions in
braces. How the length of plain text is measured is told by two relations: `StopsText` says where plain text
stops, and `PlainText` how it goes on in front of that.

Neither plain text nor an escape sequence leaves a backslash open (`PlainText.escapesNext`,
`escapesNext_escape`). So where plain text stops, the backslashes of all that is in front say that nothing is
escaped.
-/
namespace FacadeStubs.Php

open Lexical

theorem beginsWith_single {text : String} {c : Char} (htext : text.toList = [c]) {bytes : Bytes} :
    beginsWith text bytes = true ↔ ∃ rest, bytes = ascii c :: rest := by
  rw [beginsWith, htext]
  cases bytes with
  | nil => simp [beginsWith.go]
  | cons a rest =>
    simp only [beginsWith.go, Bool.and_true, beq_iff_eq, List.cons.injEq]
    exact ⟨fun h => ⟨rest, h.symm, rfl⟩, fun ⟨_, h, _⟩ => h.symm⟩

/-! ## Escape sequences -/

/-- What an escape sequence takes along behind its first sign are digits and braces. -/
theorem escape_plain (b : UInt8) (rest : Bytes) :
    ∀ a ∈ rest.take (escapeLength (b :: rest) - 1), a ≠ 92 := by
  have hrun : ∀ {t : Bytes}, t <+: rest → (∀ a ∈ t, a ≠ 92) → ∀ a ∈ rest.take t.length, a ≠ 92 := by
    intro t ht hplain
    rw [← List.prefix_iff_eq_take.1 ht]
    exact hplain
  have hdigits : ∀ {digit : UInt8 → Bool} {s : Bytes}, digit 92 = false → ∀ a ∈ s.takeWhile digit, a ≠ 92 := by
    rintro digit s hdigit a ha rfl
    rw [List.mem_takeWhile_imp ha] at hdigit
    cases hdigit
  have hnone : ∀ a ∈ rest.take 0, a ≠ 92 := hrun List.nil_prefix (fun _ ha => by cases ha)
  simp only [escapeLength]
  split
  next => exact hnone
  split
  next hoctal =>
    have hlength : ((List.take 3 (b :: rest)).takeWhile isOctalDigit).length - 1 =
        ((rest.take 2).takeWhile isOctalDigit).length := by simp [hoctal]
    rw [hlength]
    exact hrun ((List.takeWhile_prefix _).trans (List.take_prefix _ _)) (hdigits rfl)
  split
  next =>
    have hhex := hrun ((List.takeWhile_prefix isHexDigit).trans (List.take_prefix 2 _)) (hdigits rfl)
    split
    next => exact hnone
    next n hn =>
      rw [hn] at hhex
      exact hhex
  split
  next =>
    split
    next hpoint =>
      obtain ⟨hopen, hclose⟩ := Bool.and_eq_true_iff.1 hpoint
      obtain ⟨-, hopen⟩ := Bool.and_eq_true_iff.1 hopen
      obtain ⟨r, rfl⟩ := (beginsWith_single (c := '\x7b') rfl).1 hopen
      obtain ⟨u, hu⟩ := (beginsWith_single (c := '\x7d') rfl).1 hclose
      simp only [List.drop_succ_cons, List.drop_zero] at hu ⊢
      have hr : r = r.takeWhile isHexDigit ++ 125 :: u := by
        have hsplit := List.take_append_drop (r.takeWhile isHexDigit).length r
        rw [hu, ← List.prefix_iff_eq_take.1 (List.takeWhile_prefix isHexDigit)] at hsplit
        exact hsplit.symm
      have hprefix : 123 :: (r.takeWhile isHexDigit ++ [125]) <+: 123 :: r := by
        refine List.cons_prefix_cons.2 ⟨rfl, u, ?_⟩
        rw [List.append_assoc]
        exact hr.symm
      have hplain := hrun hprefix fun a ha => by
        rcases List.mem_cons.1 ha with rfl | ha
        · decide
        rcases List.mem_append.1 ha with ha | ha
        · exact hdigits rfl a ha
        · obtain rfl := List.mem_singleton.1 ha
          decide
      rw [List.length_cons, List.length_append] at hplain
      exact hplain
    next => exact hnone
  next => exact hnone

/-- An escape sequence leaves no backslash open. -/
theorem escapesNext_escape {b : UInt8} {rest : Bytes} (h : escapeLength (b :: rest) ≠ 0) :
    escapesNext 92 false ((92 :: b :: rest).take (escapeLength (b :: rest) + 1)) = false := by
  obtain ⟨n, hn⟩ := Nat.exists_eq_succ_of_ne_zero h
  have hplain := escape_plain b rest
  rw [hn, Nat.succ_sub_one] at hplain
  rw [hn, List.take_succ_cons, List.take_succ_cons, escapesNext_pair]
  exact escapesNext_plain hplain

/-! ## Plain text -/

/-- Where plain text between double quotes stops: at the quote, at an escape sequence, where a variable or
an expression opens, and behind the name of a variable at an element or a member of it. -/
inductive StopsText (named : Bool) : Bytes → Prop
  | quote (rest : Bytes) : StopsText named (34 :: rest)
  | escape {b : UInt8} {rest : Bytes} : escapeLength (b :: rest) ≠ 0 → StopsText named (92 :: b :: rest)
  | dollar {rest : Bytes} : beginsVariable rest = true → StopsText named (36 :: rest)
  | brace (rest : Bytes) : StopsText named (123 :: 36 :: rest)
  | element (rest : Bytes) : named = true → StopsText named (91 :: rest)
  | member {bytes : Bytes} : named = true → atMember bytes = true → StopsText named bytes

/-- So many bytes of plain text are in front of where it stops. A backslash that begins no escape sequence is
plain, with a brace behind it or in front of other plain text. -/
inductive PlainText : Bool → Bytes → Nat → Prop
  | stop {named : Bool} {bytes : Bytes} : StopsText named bytes → PlainText named bytes 0
  | brace {named : Bool} {rest : Bytes} {n : Nat} : PlainText false rest n →
      PlainText named (92 :: 123 :: rest) (n + 2)
  | backslash {named : Bool} {b : UInt8} {rest : Bytes} {n : Nat} : b ≠ 123 → escapeLength (b :: rest) = 0 →
      PlainText false (b :: rest) n → PlainText named (92 :: b :: rest) (n + 1)
  | plain {named : Bool} {a : UInt8} {rest : Bytes} {n : Nat} : a ≠ 92 → PlainText false rest n →
      PlainText named (a :: rest) (n + 1)

theorem plainText_of_textLength? : ∀ {bytes : Bytes} {named : Bool} {n : Nat},
    textLength? .quotes named bytes = some n → PlainText named bytes n
  | [], _, _, h => by cases h
  | a :: rest, named, n, h => by
    rw [textLength?.eq_def] at h
    dsimp only at h
    split at h
    next hend =>
      obtain rfl := Option.some.inj h
      obtain rfl : a = 34 := beq_iff_eq.1 hend
      exact .stop (.quote rest)
    split at h
    next hbackslash =>
      obtain rfl : a = 92 := beq_iff_eq.1 hbackslash
      cases rest with
      | nil => cases h
      | cons b rest =>
        dsimp only at h
        split at h
        next hbrace =>
          obtain rfl : b = 123 := by simpa using hbrace
          obtain ⟨m, hm, rfl⟩ := Option.map_eq_some_iff.1 h
          exact .brace (plainText_of_textLength? hm)
        next hbrace =>
        have hb : b ≠ 123 := by
          rintro rfl
          exact hbrace rfl
        split at h
        next hescape =>
          obtain rfl := Option.some.inj h
          exact .stop (.escape (by simpa using hescape))
        next hescape =>
          obtain ⟨m, hm, rfl⟩ := Option.map_eq_some_iff.1 h
          exact .backslash hb (by simpa using hescape) (plainText_of_textLength? hm)
    next hbackslash =>
    have ha : a ≠ 92 := by
      rintro rfl
      exact hbackslash rfl
    split at h
    next hdollar =>
      obtain rfl := Option.some.inj h
      obtain ⟨ha, hbegins⟩ := Bool.and_eq_true_iff.1 hdollar
      obtain rfl : a = 36 := beq_iff_eq.1 ha
      exact .stop (.dollar hbegins)
    split at h
    next hbrace =>
      obtain rfl := Option.some.inj h
      obtain ⟨ha, hhead⟩ := Bool.and_eq_true_iff.1 hbrace
      obtain rfl : a = 123 := beq_iff_eq.1 ha
      obtain ⟨rest, rfl⟩ := List.head?_eq_some_iff.1 (beq_iff_eq.1 hhead)
      exact .stop (.brace rest)
    split at h
    next hmember =>
      obtain rfl := Option.some.inj h
      obtain ⟨hnamed, hmember⟩ := Bool.and_eq_true_iff.1 hmember
      rcases Bool.or_eq_true_iff.1 hmember with ha | hmember
      · obtain rfl : a = 91 := beq_iff_eq.1 ha
        exact .stop (.element rest hnamed)
      · exact .stop (.member hnamed hmember)
    next =>
      obtain ⟨m, hm, rfl⟩ := Option.map_eq_some_iff.1 h
      exact .plain ha (plainText_of_textLength? hm)

theorem PlainText.stops {named : Bool} {bytes : Bytes} (h : PlainText named bytes 0) : StopsText named bytes := by
  cases h with
  | stop h => exact h

/-- Plain text leaves no backslash open. -/
theorem PlainText.escapesNext {named : Bool} {bytes : Bytes} {n : Nat} (h : PlainText named bytes n) :
    escapesNext 92 false (bytes.take n) = false := by
  induction h with
  | stop _ => rfl
  | brace _ ih =>
    rw [List.take_succ_cons, List.take_succ_cons, escapesNext_pair]
    exact ih
  | plain ha _ ih =>
    rw [List.take_succ_cons, escapesNext_cons_of_ne ha]
    exact ih
  | @backslash named b rest n hb hescape hrest ih =>
    have hb92 : b ≠ 92 := by
      rintro rfl
      cases hescape
    -- the sign behind the backslash is plain too, since what stops the text begins an escape sequence there
    cases hrest with
    | stop hstops =>
      cases hstops with
      | quote => cases hescape
      | escape => exact absurd rfl hb92
      | dollar => cases hescape
      | brace => exact absurd rfl hb
      | element _ hnamed => cases hnamed
      | member hnamed => cases hnamed
    | brace => exact absurd rfl hb92
    | backslash => exact absurd rfl hb92
    | plain =>
      rw [List.take_succ_cons, List.take_succ_cons, escapesNext_pair]
      rw [List.take_succ_cons, escapesNext_cons_of_ne hb92] at ih
      exact ih

end FacadeStubs.Php
