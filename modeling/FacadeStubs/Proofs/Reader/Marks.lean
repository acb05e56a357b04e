import FacadeStubs.Proofs.Reader.Reading
import Mathlib.Data.List.Find

/-!
# Operators between operands

An operator stands between two operands with gaps around it, and a word may be spelled in any letter case.
A `OperatorMark` is an operator as it is written. Where an operand, an operator and what follows it can be told
from each other (`OperatorMark.Fits`), the operator is read as itself.

Results:
* `OperatorMark.Fits.standsAs`: an operator is read as itself, and no operand goes on into it.
* `OperatorMark.Fits.ends`: so it ends the operand in front of it.
* `fits_mark`: operators with a blank on either side fit anywhere.
-/
namespace FacadeStubs.Php

open Lexical Reader Analysis

/-! ## Operators in front of their operands -/

/-- The operators between two operands that bind by strength. -/
def operators : List BinaryOperator := wordOperators ++ signOperators

/-- The bytes of an operator. -/
def BinaryOperator.bytes (o : BinaryOperator) : Bytes := Utf8.bytesOf o.text

/-- How tightly what stands on the right of an operator has to bind. -/
def BinaryOperator.rightLeast (o : BinaryOperator) : Nat :=
  if o.groupsRight then o.strength else o.strength + 1

/-- How tightly what stands on the left of an operator has to bind. -/
def BinaryOperator.leftLeast (o : BinaryOperator) : Nat :=
  if o.groupsRight then o.strength + 1 else o.strength

/-- What is looked for where an operator may stand, and where a comment or a tag may. -/
def lookedFor : List String :=
  signOperators.map (·.text) ++ ["->", "?->", "::", "[", "(", "\\", "?", "??", "?>", "//", "/*"]

/-- Whether a byte may follow an operator at once: no longer name comes of the two, and nothing else that
is looked for. -/
def BinaryOperator.endsBefore (o : BinaryOperator) (b : UInt8) : Bool :=
  if o.bytes.all isLabelByte then !isLabelByte b
  else lookedFor.all fun text => !(o.bytes ++ [b]).isPrefixOf (text.toList.map ascii)

/-- An operator as it is spelled between two operands, and the gaps around it. -/
structure OperatorMark where
  operator : BinaryOperator
  before : Bytes
  sign : Bytes
  after : Bytes

/-- An operator with a blank on either side. -/
def BinaryOperator.mark (o : BinaryOperator) : OperatorMark := ⟨o, [32], o.bytes, [32]⟩

@[simp] theorem BinaryOperator.mark_operator (o : BinaryOperator) : o.mark.operator = o := rfl

/-- An operator that can be told from the operand in front of it and from what follows. -/
structure OperatorMark.Fits (m : OperatorMark) (left right : Bytes) : Prop where
  operator : m.operator ∈ operators
  spelled : m.sign.map lowerByte = m.operator.bytes
  before : IsGap m.before
  after : IsGap m.after
  left : ∀ b ∈ (m.before ++ m.sign).head?, mayFollow left b = true
  right : ∀ b ∈ (m.after ++ right).head?, m.operator.endsBefore b = true

/-- Bytes that begin with the sign of an operator, which is read as that operator, and that no operand
goes on into. -/
structure StandsAs (o : BinaryOperator) (sign w : Bytes) : Prop where
  begins : BeginsToken w
  settled : Settled w
  at? : operatorAt? w = some o
  length : max o.text.length (nameLength w) = sign.length

theorem lowerByte_eq {a b : UInt8} (h : lowerByte a = b) :
    a = b ∨ 97 ≤ b ∧ b ≤ 122 ∧ a = b - 32 := by
  unfold lowerByte at h
  split at h
  · rename_i hcapital
    right
    grind
  · exact .inl h

/-- A spelling of a word, letter by letter in either case. -/
def spellings : Bytes → List Bytes
  | [] => [[]]
  | b :: t => (spellings t).flatMap fun s => [b :: s, (b - 32) :: s]

theorem mem_spellings {s t : Bytes} (h : s.map lowerByte = t) : s ∈ spellings t := by
  induction s generalizing t with
  | nil =>
    cases h
    simp [spellings]
  | cons a s ih =>
    cases t with
    | nil => cases h
    | cons b t =>
      obtain ⟨ha, hs⟩ := List.cons.inj h
      have hmem := ih hs
      rcases lowerByte_eq ha with rfl | ⟨-, -, rfl⟩
      · exact List.mem_flatMap.2 ⟨s, hmem, by simp⟩
      · exact List.mem_flatMap.2 ⟨s, hmem, by simp⟩

/-- What has no letters is spelled in one way. -/
theorem eq_of_spelled {s t : Bytes} (h : s.map lowerByte = t) (ht : ∀ b ∈ t, ¬ (97 ≤ b ∧ b ≤ 122)) :
    s = t := by
  induction s generalizing t with
  | nil => exact h
  | cons a s ih =>
    subst h
    obtain ⟨hb, hrest⟩ := List.forall_mem_cons.1 ht
    rcases lowerByte_eq (a := a) rfl with heq | ⟨hlow, hhigh, -⟩
    · rw [List.map_cons, ← heq, ← ih rfl hrest]
    · exact absurd ⟨hlow, hhigh⟩ hb

/-- An operator of signs is spelled in one way. -/
theorem eq_of_spelled_sign {o : BinaryOperator} (ho : o ∈ signOperators) {s : Bytes}
    (h : s.map lowerByte = o.bytes) : s = o.bytes := by
  have hno : ∀ o ∈ signOperators, o.bytes.all (fun b => !(97 ≤ b && b ≤ 122)) = true := by decide
  refine eq_of_spelled h fun b hb hletter => ?_
  have hsign := List.all_eq_true.1 (hno o ho) b hb
  simp [hletter] at hsign

theorem standsAs_word {o : BinaryOperator} (ho : o ∈ wordOperators) {sign w : Bytes}
    (hsign : sign.map lowerByte = o.bytes) (hw : Boundary w) : StandsAs o sign (sign ++ w) := by
  have hall : ∀ o ∈ wordOperators, ∀ s ∈ spellings o.bytes, IsName s ∧ folded s = o.text.toList ∧
      o.text.length = s.length ∧ s.head?.all isSolid = true := by decide +kernel
  obtain ⟨hname, hfolded, hlength, hsolid⟩ := hall o ho sign (mem_spellings hsign)
  have hword : wordAt (sign ++ w) = o.text := by
    rw [wordAt_append hname hw, hfolded, String.ofList_toList]
  obtain ⟨b, rest, rfl⟩ := List.exists_cons_of_ne_nil hname.1
  have hlabel : isLabelByte b = true := isLabelByte_of_mem hname b List.mem_cons_self
  have hn : nameLength (b :: rest ++ w) ≠ 0 := by
    rw [nameLength_append hname hw]
    simp
  refine ⟨beginsToken_solid (by simpa using hsolid), ?_, ?_, ?_⟩
  · have hno : ∀ {t : String} {x : Char} {xs : List Char}, t.toList = x :: xs →
        isLabelByte (ascii x) = false → beginsWith t (b :: rest ++ w) = false :=
      fun ht hx => beginsWith_name hn ht hx
    have htest : ∀ o ∈ wordOperators, o.text ≠ "instanceof" := by decide
    refine ⟨?_, hno rfl rfl, hno rfl rfl, hno rfl rfl, hno rfl rfl, hword ▸ htest o ho, ?_⟩
    · simp only [arrowAt?, List.find?, hno (t := "->") rfl rfl, hno (t := "?->") rfl rfl]
    · simp only [atCondition, hno (t := "?") rfl rfl, Bool.false_and]
  · unfold operatorAt?
    rw [hword]
    simp only [wordOperators, List.mem_cons, List.not_mem_nil, or_false] at ho
    rcases ho with rfl | rfl | rfl <;> rfl
  · rw [nameLength_append hname hw, hlength, Nat.max_self]

theorem boundary_sign {o : BinaryOperator} (ho : o ∈ signOperators) (w : Bytes) :
    Boundary (o.bytes ++ w) := by
  have hfirst : ∀ o ∈ signOperators, o.bytes.head?.map isLabelByte = some false := by decide
  have ho' := hfirst o ho
  cases hb : o.bytes with
  | nil => simp [hb] at ho'
  | cons b rest => exact boundary_cons (by simpa [hb] using ho')

/-- What begins with an operator and a byte that is no part of what is looked for does not show it, unless
the operator does. -/
theorem beginsWith_append {text : String} {s : Bytes} {b : UInt8}
    (h : (s ++ [b]).isPrefixOf (text.toList.map ascii) = false) (w : Bytes) :
    beginsWith text (s ++ b :: w) = beginsWith text s := by
  have hgo : ∀ (cs : List Char) (s : Bytes), (s ++ [b]).isPrefixOf (cs.map ascii) = false →
      beginsWith.go cs (s ++ b :: w) = beginsWith.go cs s := by
    intro cs
    induction cs with
    | nil =>
      intro s _
      cases s <;> rfl
    | cons c cs ih =>
      intro s hs
      cases s with
      | nil =>
        have hne : (ascii c == b) = false := by
          rw [Bool.beq_comm]
          simpa [List.isPrefixOf] using hs
        simp [beginsWith.go, hne]
      | cons a s =>
        simp only [List.cons_append, beginsWith.go]
        cases ha : ascii c == a with
        | false => rfl
        | true =>
          obtain rfl : ascii c = a := by simpa using ha
          rw [ih s (by simpa [List.isPrefixOf] using hs)]
  exact hgo _ _ h

theorem beginsWith_operator {o : BinaryOperator} (ho : o ∈ signOperators) {b : UInt8}
    (hb : o.endsBefore b = true) {text : String} (htext : text ∈ lookedFor) (w : Bytes) :
    beginsWith text (o.bytes ++ b :: w) = beginsWith text o.bytes := by
  have hsign : ∀ o ∈ signOperators, o.bytes.all isLabelByte = false := by decide
  rw [BinaryOperator.endsBefore, hsign o ho, if_neg (by decide), List.all_eq_true] at hb
  exact beginsWith_append (by simpa using hb text htext) w

theorem beginsToken_operator {o : BinaryOperator} (ho : o ∈ signOperators) {b : UInt8}
    (hb : o.endsBefore b = true) (w : Bytes) : BeginsToken (o.bytes ++ b :: w) := by
  have hall : ∀ o ∈ signOperators, o.bytes = [47] ∨ o.bytes = [63, 63] ∨
      o.bytes.head?.any isSolid = true := by decide
  rcases hall o ho with hslash | hask | hsolid
  · have hcomment : ∀ text ∈ ["//", "/*"], beginsWith text (47 :: b :: w) = false := by
      intro text htext
      have hin : ∀ text ∈ ["//", "/*"], text ∈ lookedFor := by decide
      have heq := beginsWith_operator ho hb (hin text htext) w
      have hnone : ∀ text ∈ ["//", "/*"], beginsWith text [47] = false := by decide
      rw [hslash, hnone text htext] at heq
      exact heq
    have hslashes : b ≠ 47 := by
      rintro rfl
      cases hcomment "//" (by simp)
    have hstar : b ≠ 42 := by
      rintro rfl
      cases hcomment "/*" (by simp)
    rw [hslash]
    exact ⟨blankLength_printed (by decide) (by decide), fun attributes => by
      simp [commentLength, hslashes, hstar], atClosingTag_of_ne (by decide)⟩
  · rw [hask]
    exact ⟨blankLength_printed (by decide) (by decide), commentLength_of_ne (by decide) (by decide), rfl⟩
  · cases hbytes : o.bytes with
    | nil => simp [hbytes] at hsolid
    | cons a rest => exact beginsToken_solid (by simpa [hbytes] using hsolid)

theorem standsAs_sign {o : BinaryOperator} (ho : o ∈ signOperators) {b : UInt8}
    (hb : o.endsBefore b = true) (w : Bytes) : StandsAs o o.bytes (o.bytes ++ b :: w) := by
  have hbound := boundary_sign ho (b :: w)
  have hword := wordAt_boundary hbound
  have hshows : ∀ text ∈ lookedFor, beginsWith text (o.bytes ++ b :: w) = beginsWith text o.bytes :=
    fun text htext => beginsWith_operator ho hb htext w
  have hmarks : ∀ text ∈ ["->", "?->", "::", "[", "(", "\\", "?", "??", "?>"],
      beginsWith text (o.bytes ++ b :: w) = beginsWith text o.bytes := by
    have hin : ∀ text ∈ ["->", "?->", "::", "[", "(", "\\", "?", "??", "?>"], text ∈ lookedFor := by decide
    exact fun text htext => hshows text (hin text htext)
  simp only [List.forall_mem_cons] at hmarks
  obtain ⟨harrow, hnull, hcolons, hbracket, hparen, hbackslash, hask, hcoalesce, htag, -⟩ := hmarks
  have hclosed : ∀ o ∈ signOperators, arrowAt? o.bytes = none ∧ beginsWith "::" o.bytes = false ∧
      beginsWith "[" o.bytes = false ∧ beginsWith "(" o.bytes = false ∧
      beginsWith "\\" o.bytes = false ∧ atCondition o.bytes = false ∧
      o.text.length = o.bytes.length := by decide
  obtain ⟨harrow', hcolons', hbracket', hparen', hbackslash', hcondition, hlength⟩ := hclosed o ho
  refine ⟨beginsToken_operator ho hb w, ⟨?_, hcolons.trans hcolons', hbracket.trans hbracket',
    hparen.trans hparen', hbackslash.trans hbackslash', by rw [hword]; decide, ?_⟩, ?_, ?_⟩
  · rw [← harrow']
    simp only [arrowAt?, List.find?, harrow, hnull]
  · rw [← hcondition]
    simp only [atCondition, atClosingTag, hask, hcoalesce, hnull, htag]
  · have hfind : signOperators.find? (fun o' => beginsWith o'.text (o.bytes ++ b :: w)) =
        signOperators.find? fun o' => beginsWith o'.text o.bytes :=
      List.find?_congr fun o' ho' => hshows o'.text (List.mem_append_left _ (List.mem_map_of_mem ho'))
    unfold operatorAt?
    rw [hword]
    refine hfind.trans ?_
    simp only [signOperators, List.mem_cons, List.not_mem_nil, or_false] at ho
    rcases ho with rfl | rfl | rfl | rfl | rfl | rfl | rfl | rfl | rfl | rfl | rfl | rfl | rfl | rfl |
      rfl | rfl | rfl | rfl | rfl | rfl | rfl | rfl | rfl | rfl | rfl <;> rfl
  · rw [nameLength_boundary hbound, hlength, Nat.max_zero]

namespace OperatorMark.Fits

variable {m : OperatorMark} {left right : Bytes}

/-- An operator that fits is read as itself. -/
theorem standsAs (h : m.Fits left right) (hright : right ≠ []) (w : Bytes) :
    StandsAs m.operator m.sign (m.sign ++ (m.after ++ (right ++ w))) := by
  obtain ⟨b, rest, hb⟩ : ∃ b rest, m.after ++ right = b :: rest :=
    List.exists_cons_of_ne_nil (by simp [hright])
  have hbehind : m.after ++ (right ++ w) = b :: (rest ++ w) := by
    rw [← List.append_assoc, hb, List.cons_append]
  have hends : m.operator.endsBefore b = true := h.right b (by rw [hb]; rfl)
  rw [hbehind]
  rcases List.mem_append.1 h.operator with ho | ho
  · have hlabel : ∀ o ∈ wordOperators, o.bytes.all isLabelByte = true := by decide
    rw [BinaryOperator.endsBefore, if_pos (hlabel _ ho)] at hends
    exact standsAs_word ho h.spelled (boundary_cons (by simpa using hends))
  · rw [eq_of_spelled_sign ho h.spelled]
    exact standsAs_sign ho hends _

theorem begins (h : m.Fits left right) (hright : right ≠ []) (w : Bytes) :
    Next (m.before ++ (m.sign ++ (m.after ++ (right ++ w)))) (m.sign ++ (m.after ++ (right ++ w))) :=
  next_append h.before (h.standsAs hright w).begins

theorem sign_ne_nil (h : m.Fits left right) : m.sign ≠ [] := by
  intro hnil
  have hne : ∀ o ∈ operators, o.bytes ≠ [] := by decide
  exact hne _ h.operator (by rw [← h.spelled, hnil]; rfl)

/-- An operand ends in front of an operator that fits. -/
theorem ends (h : m.Fits left right) (hright : right ≠ []) (w : Bytes) :
    Ends left (m.before ++ (m.sign ++ (m.after ++ (right ++ w)))) := by
  obtain ⟨b, rest, hb⟩ : ∃ b rest, m.before ++ m.sign = b :: rest :=
    List.exists_cons_of_ne_nil (by simp [h.sign_ne_nil])
  have hfront : m.before ++ (m.sign ++ (m.after ++ (right ++ w))) =
      b :: (rest ++ (m.after ++ (right ++ w))) := by
    rw [← List.append_assoc, hb, List.cons_append]
  have hfollows : mayFollow left b = true := h.left b (by rw [hb]; rfl)
  simp only [mayFollow, Bool.and_eq_true, Bool.or_eq_true, Bool.not_eq_true', Bool.and_eq_false_iff,
    beq_eq_false_iff_ne] at hfollows
  refine ⟨fun hclosed => ?_, fun hnumeral => ?_, ?_⟩
  · rw [hfront]
    exact boundary_cons (hfollows.1.resolve_left (by simp [hclosed]))
  · rw [hfront]
    simpa using hfollows.2.resolve_left (by simp [hnumeral])
  · rw [(h.begins hright w).drop_gaps]
    exact (h.standsAs hright w).settled

end OperatorMark.Fits

theorem mayFollow_blank (t : Bytes) : mayFollow t 32 = true := by
  simp [mayFollow, isLabelByte, isLetter, isDigit]

/-- An operator with a blank on either side fits between any two operands. -/
theorem fits_mark {o : BinaryOperator} (ho : o ∈ operators) (left right : Bytes) :
    o.mark.Fits left right where
  operator := ho
  spelled := by
    have hall : ∀ o ∈ operators, o.bytes.map lowerByte = o.bytes := by decide
    exact hall o ho
  before := isGap_spaces rfl
  after := isGap_spaces rfl
  left := by
    rintro b hb
    obtain rfl : 32 = b := by simpa [BinaryOperator.mark] using hb
    exact mayFollow_blank left
  right := by
    rintro b hb
    obtain rfl : 32 = b := by simpa [BinaryOperator.mark] using hb
    have hall : ∀ o ∈ operators, o.endsBefore 32 = true := by decide +kernel
    exact hall o ho

end FacadeStubs.Php
