import FacadeStubs.Proofs.Notation.Escapes
import FacadeStubs.Proofs.Text.Backslashes

/-!
# Variables in double-quoted strings

A text between double quotes is no constant if a variable stands in it. The reader of such texts knows a
variable by its first two characters, a dollar sign or an opening brace and what follows it
(`OpensVariable`), wherever a piece may begin.

Where pieces begin is told by the backslashes alone (`escapesNext`). An escape may take more than one
character along, but these are digits, or the text of a code point in braces, which is not read if it holds
a dollar sign.

Results:
* `piece?_backslash`: no escape takes the first character of a variable along.
* `doubleQuoted?_variable`: a variable that no backslash escapes is found.
-/
namespace FacadeStubs.Php.Notation

open Decimal

/-! ## Where variables are seen -/

/-- A dollar sign in front of an ASCII letter, an underscore or a brace, or a brace in front of a dollar
sign. -/
inductive OpensVariable : List Char → Prop
  | dollar (d : Char) (rest : List Char) :
      d.isAlpha = true ∨ d = '_' ∨ d = '\x7b' → OpensVariable ('$' :: d :: rest)
  | brace (rest : List Char) : OpensVariable ('\x7b' :: '$' :: rest)

section
variable {before after : List Char}

theorem OpensVariable.not_closing (h : OpensVariable after) : ∀ c ∈ after.head?, c = '$' ∨ c = '\x7b' := by
  intro c hc
  cases h with
  | dollar d rest _ =>
    cases hc
    exact .inl rfl
  | brace rest =>
    cases hc
    exact .inr rfl

/-- There is a dollar sign, and no brace is closed in front of it. -/
theorem OpensVariable.dollar_mem (h : OpensVariable after) :
    '$' ∈ after.takeWhile (· != '\x7d') := by
  cases h with
  | dollar d rest _ => simp
  | brace rest => simp

/-- At a variable there is no piece. -/
theorem piece?_variable {c : Char} {rest : List Char} (h : OpensVariable (c :: rest)) : piece? c rest = none := by
  cases h with
  | dollar d rest hd =>
    have hopens : (d.isAlpha || d == '_' || d == '\x7b') = true := by
      simpa [or_assoc] using hd
    rw [piece?, if_pos hopens]
  | brace rest => rfl

/-- A run of digits ends where something else comes. -/
theorem digitRun_of_append {base : Nat} (hbase : base ≤ 16) {rest : List Char}
    (h : ∀ d ∈ rest.head?, ¬ IsDigitIn base d) (most : Nat) (front : List Char) :
    digitRun base most (front ++ rest) = digitRun base most front := by
  induction front generalizing most with
  | nil => rw [List.nil_append, digitRun_eq_nil hbase h, digitRun_eq_nil hbase (by simp)]
  | cons c front ih =>
    cases most with
    | zero => rfl
    | succ most =>
      have hrest : ((front ++ rest).take most).takeWhile (fun c => (digitIn? base c).isSome) =
          (front.take most).takeWhile (fun c => (digitIn? base c).isSome) := ih most
      simp only [digitRun, List.cons_append, List.take_succ_cons, List.takeWhile_cons, hrest]

theorem digitRun_before {base : Nat} (hbase : base ≤ 16) (most : Nat) (hafter : OpensVariable after) :
    digitRun base most (before ++ after) = digitRun base most before := by
  refine digitRun_of_append hbase (fun d hd hdigit => ?_) most before
  have hsixteen : IsDigitIn 16 d := Nat.lt_of_lt_of_le hdigit hbase
  rcases hafter.not_closing d hd with rfl | rfl
  · exact absurd hsixteen (by decide)
  · exact absurd hsixteen (by decide)

theorem readDigitsFrom?_of_mem {base : Nat} {c : Char} (hc : digitIn? base c = none) {digits : List Char}
    (h : c ∈ digits) (n : Nat) : readDigitsFrom? base n digits = none := by
  induction digits generalizing n with
  | nil => cases h
  | cons d digits ih =>
    rw [readDigitsFrom?]
    rcases List.mem_cons.1 h with rfl | h
    · rw [hc]
    · cases digitIn? base d with
      | none => rfl
      | some v => exact ih h _

/-- A text with a dollar sign in it is no code point. -/
theorem codePoint?_dollar {hex : List Char} (h : '$' ∈ hex) : codePoint? hex = none := by
  have hread : ∀ {digits : List Char}, '$' ∈ digits → readDigits? 16 digits = none := by
    intro digits hmem
    rw [readDigits?]
    split
    · rfl
    · exact readDigitsFrom?_of_mem rfl hmem 0
  unfold codePoint?
  split
  · rename_i digits
    have hmem : '$' ∈ digits := by
      rcases List.mem_cons.1 h with heq | hmem
      · cases heq
      · exact hmem
    dsimp only
    rw [hread hmem, Option.bind_none]
  · dsimp only
    rw [hread h, Option.bind_none]

/-- The text of a code point is closed in front of a variable. -/
theorem codePoint?_before {front : List Char} {e : Char} (hafter : OpensVariable after)
    (h : codePoint? ((front ++ after).takeWhile (· != '\x7d')) = some e) :
    ∃ hex t, front = hex ++ '\x7d' :: t ∧ (front ++ after).takeWhile (· != '\x7d') = hex := by
  have hopen : ∀ {s : List Char}, '\x7d' ∉ s → ∀ c ∈ s, (c != '\x7d') = true := fun hs c hc =>
    bne_iff_ne.2 fun heq => hs (heq ▸ hc)
  by_cases hclosed : '\x7d' ∈ front
  · obtain ⟨hex, t, rfl, hhex⟩ := List.eq_append_cons_of_mem hclosed
    refine ⟨hex, t, rfl, ?_⟩
    rw [List.append_assoc, List.cons_append, List.takeWhile_append_of_pos (hopen hhex),
      List.takeWhile_cons_of_neg (by decide), List.append_nil]
  · rw [List.takeWhile_append_of_pos (hopen hclosed),
      codePoint?_dollar (List.mem_append_right _ hafter.dollar_mem)] at h
    cases h

/-- A character that is no backslash is a piece of its own, or there is none. -/
theorem piece?_of_ne {c : Char} (hc : c ≠ '\\') (rest : List Char) :
    piece? c rest = none ∨ piece? c rest = some (1, [c]) := by
  unfold piece?
  split
  next =>
    split
    · exact .inl rfl
    · exact .inr rfl
  next => exact .inl rfl
  next => exact absurd rfl hc
  next => exact .inr rfl

/-- Of a text in front of a variable, an escape of `n` characters takes along what is behind the backslash
and the sign, and the rest of it escapes the variable only if all of it does. -/
def TakesAlong (front : List Char) (n : Nat) : Prop :=
  ∃ s t, front = s ++ t ∧ n = s.length + 2 ∧ escapesNext '\\' false t = escapesNext '\\' false front

theorem takesAlong_nothing (front : List Char) : TakesAlong front 2 := ⟨[], front, rfl, rfl, rfl⟩

/-- No backslash is among the digits of a run. -/
theorem takesAlong_run {base : Nat} (hbase : base ≤ 16) (most : Nat) (front : List Char) :
    TakesAlong front ((digitRun base most front).length + 2) := by
  obtain ⟨t, ht⟩ : digitRun base most front <+: front :=
    (List.takeWhile_prefix _).trans (List.take_prefix _ _)
  have hplain : ∀ c ∈ digitRun base most front, c ≠ '\\' := by
    rintro c hc rfl
    have hdigit := List.mem_takeWhile_imp hc
    rw [digitIn?_isSome hbase, decide_eq_true_eq] at hdigit
    exact absurd (Nat.lt_of_lt_of_le hdigit hbase : IsDigitIn 16 '\\') (by decide)
  have hsplit : escapesNext '\\' false (digitRun base most front ++ t) =
      escapesNext '\\' (escapesNext '\\' false (digitRun base most front)) t := escapesNext_append false _ t
  rw [ht, escapesNext_plain hplain] at hsplit
  exact ⟨digitRun base most front, t, ht.symm, rfl, hsplit.symm⟩

/-- A code point ends in a brace. -/
theorem takesAlong_codePoint (hex t : List Char) :
    TakesAlong ('\x7b' :: (hex ++ '\x7d' :: t)) (hex.length + 4) := by
  have hsplit : '\x7b' :: (hex ++ '\x7d' :: t) = ('\x7b' :: hex ++ ['\x7d']) ++ t := by simp
  refine ⟨'\x7b' :: hex ++ ['\x7d'], t, hsplit, by simp, ?_⟩
  rw [hsplit, escapesNext_append, escapesNext_concat (by decide)]

/-- The length of a piece with one character of its own. -/
theorem length_of_bind {value? : Option Nat} {f : Nat → Option Char} {k n : Nat} {value : List Char}
    (h : (value?.bind fun v => (f v).map fun e => (k, [e])) = some (n, value)) : k = n := by
  obtain ⟨v, -, h⟩ := Option.bind_eq_some_iff.1 h
  obtain ⟨e, -, h⟩ := Option.map_eq_some_iff.1 h
  exact (Prod.mk.inj h).1

/-- An escape in front of a variable takes nothing of it along. -/
theorem piece?_backslash {d : Char} {n : Nat} {value : List Char} (hafter : OpensVariable after)
    (h : piece? '\\' (d :: (before ++ after)) = some (n, value)) : TakesAlong before n := by
  have hnothing : ∀ {read : List Char}, some (2, read) = some (n, value) → TakesAlong before n := by
    intro read heq
    obtain ⟨rfl, -⟩ := Prod.mk.inj (Option.some.inj heq)
    exact takesAlong_nothing before
  simp only [piece?] at h
  split at h
  next => exact hnothing h
  split at h
  next =>
    rw [digitRun_before (Nat.le_refl 16) 2 hafter] at h
    split at h
    next => exact hnothing h
    next =>
      rw [← length_of_bind h, Nat.add_comm]
      exact takesAlong_run (Nat.le_refl 16) 2 before
  split at h
  next hdigit =>
    have hrun : digitRun 8 3 (d :: (before ++ after)) = d :: digitRun 8 2 before := by
      rw [← digitRun_before (by decide) 2 hafter]
      simp [digitRun, hdigit]
    rw [← length_of_bind h, hrun, Nat.add_comm]
    exact takesAlong_run (by decide) 2 before
  split at h
  next hbraced =>
    split at h
    next =>
      obtain ⟨e, hpoint, h⟩ := Option.map_eq_some_iff.1 h
      obtain ⟨rfl, -⟩ := Prod.mk.inj h
      obtain ⟨-, hopen⟩ := Bool.and_eq_true_iff.1 hbraced
      cases before with
      | nil =>
        -- the brace is that of the variable, so the text of the code point begins with its dollar sign
        cases hafter with
        | dollar d rest _ => cases hopen
        | brace rest =>
          rw [codePoint?_dollar (by simp)] at hpoint
          cases hpoint
      | cons c front =>
        obtain rfl : c = '\x7b' := Option.some.inj (beq_iff_eq.1 hopen)
        rw [List.cons_append, List.drop_succ_cons, List.drop_zero] at hpoint ⊢
        obtain ⟨hex, t, rfl, hhex⟩ := codePoint?_before hafter hpoint
        rw [hhex]
        exact takesAlong_codePoint hex t
    next => cases h
  next => exact hnothing h

end

/-- A variable that no backslash escapes is found. -/
theorem doubleQuoted?_variable {after : List Char} (hafter : OpensVariable after) : ∀ {before : List Char},
    escapesNext '\\' false before = false → doubleQuoted? (before ++ after) = none
  | [], _ => by
    obtain ⟨c, rest, rfl⟩ : ∃ c rest, after = c :: rest := by cases hafter <;> exact ⟨_, _, rfl⟩
    rw [doubleQuoted?, List.nil_append, doubleQuotedFrom?, piece?_variable hafter]
  | c :: before, h => by
    by_cases hc : c = '\\'
    · subst hc
      cases before with
      | nil => cases h
      | cons d before =>
        rw [escapesNext_pair] at h
        rw [doubleQuoted?, List.cons_append, List.cons_append, doubleQuotedFrom?]
        cases hpiece : piece? '\\' (d :: (before ++ after)) with
        | none => rfl
        | some p =>
          obtain ⟨n, value⟩ := p
          obtain ⟨s, t, rfl, rfl, hsame⟩ := piece?_backslash hafter hpiece
          have hrest : doubleQuotedFrom? 0 (t ++ after) = none :=
            doubleQuoted?_variable hafter (hsame.trans h)
          have hskip : doubleQuotedFrom? (s.length + 1) (d :: (s ++ t ++ after)) = none := by
            rw [List.append_assoc]
            exact (doubleQuotedFrom?_skip (d :: s) (t ++ after)).trans hrest
          dsimp only
          rw [Nat.add_sub_assoc (by decide), hskip, Option.map_none]
    · rw [escapesNext_cons_of_ne hc] at h
      have hrest : doubleQuotedFrom? 0 (before ++ after) = none := doubleQuoted?_variable hafter h
      rw [doubleQuoted?, List.cons_append, doubleQuotedFrom?]
      rcases piece?_of_ne hc (before ++ after) with hpiece | hpiece
      · rw [hpiece]
      · rw [hpiece]
        dsimp only
        rw [hrest, Option.map_none]
termination_by before => before.length

end FacadeStubs.Php.Notation
