import FacadeStubs.Proofs.Reader.Calls
import FacadeStubs.Proofs.Reader.Constants
import FacadeStubs.Proofs.Reader.Trees

/-!
# Parts of arrays

An entry of an array is written as a key and a value. Each of them is a text where an expression is
expected (`Part`): it is read as some node, or it cannot be read at all.

Results:
* `Written.opens`: expressions begin with none of the signs by which the elements of an array are told
  apart.
* `Written.sound`: an expression whose operands stay where they are can be read exactly if no two signs
  of it make one token.
* `Part.Sound.good_iff`: a text can be read or not, whatever it is taken for.
* `Written.Denotes.readsAs`: a grouped expression is read as the constant that it denotes.
-/
namespace FacadeStubs.Php

open Lexical Reader

variable {t u : Bytes} {v : Literal}

/-- A text where an expression is expected, with what holds of the node that it is read as, if it is
good. -/
structure Part where
  bytes : Bytes
  post : Bytes → Node → Prop
  good : Prop

/-- Whether bytes unpack something into an array, refer to something, or are no element at all. -/
def marksElement (w : Bytes) : Bool :=
  beginsWith "..." w || beginsWith "&" w || beginsWith "," w || beginsWith ")" w

/-- Wherever an expression is expected and nothing goes on the text, it is read if it is good, and it
cannot be read if not. -/
structure Part.Sound (p : Part) : Prop where
  begins : ∀ u, BeginsToken (p.bytes ++ u)
  opens : ∀ u, Closes Strength.any u → marksElement (p.bytes ++ u) = false
  decides : ∀ ⦃long : Bool⦄ ⦃n : Nat⦄ ⦃source : Bytes⦄, p.bytes.length ≤ n →
    Decides source false (expressionWith (Grammar.upTo long n) Strength.any) p.bytes
      (Closes Strength.any) (p.post source) p.good

theorem exists_of_beginsWith {text : String} {a : Char} (ht : text.toList = [a]) {w : Bytes}
    (h : beginsWith text w = true) : ∃ v, w = ascii a :: v := by
  cases w with
  | nil => simp [beginsWith, ht, beginsWith.go] at h
  | cons x w =>
    simp only [beginsWith, ht, beginsWith.go, Bool.and_true, beq_iff_eq] at h
    exact ⟨w, by rw [h]⟩

theorem exists_of_beginsWith_points {w : Bytes} (h : beginsWith "..." w = true) :
    ∃ v, w = 46 :: 46 :: 46 :: v := by
  have hpoints : "...".toList = ['.', '.', '.'] := rfl
  match w with
  | [] | [x] | [x, y] => simp [beginsWith, hpoints, beginsWith.go] at h
  | x :: y :: z :: w =>
    simp only [beginsWith, hpoints, beginsWith.go, Bool.and_true, Bool.and_eq_true, beq_iff_eq] at h
    obtain ⟨rfl, rfl, rfl⟩ := h
    exact ⟨w, rfl⟩

/-- The first of three points is read as a number. -/
theorem operandWith_points (grammar : Grammar) {c : Cursor} {v : Bytes}
    (hr : c.rest = 46 :: 46 :: 46 :: v) : ∃ node, (operandWith grammar).run c =
      some (.closed .primary node, c.past 1) := by
  have hlength : max (integerLength c.rest) (floatLength c.rest) = 1 := by
    rw [hr]
    rfl
  exact ⟨_, operandWith_closed (primary_number hr (.inr rfl) Nat.one_ne_zero hlength)⟩

/-- An operand begins with none of the signs that mark elements. -/
theorem opens_atom (h : IsAtom t) (hu : Ends t u) : marksElement (t ++ u) = false := by
  let c : Cursor := { rest := t ++ u, offset := 0, size := (t ++ u).length }
  obtain ⟨kind, children, extent, rank, -, -, -, hrun⟩ :=
    h.reads true 0 c u rfl (Nat.le_refl _) rfl hu
  have hsign : ∀ (text : String) (a : Char), text.toList = [a] →
      (ascii a = 38 ∨ ascii a = 41 ∨ ascii a = 44 ∨ ascii a = 125) →
      beginsWith text (t ++ u) = false := by
    intro text a htext ha
    by_contra hbegins
    obtain ⟨w, hw⟩ := exists_of_beginsWith htext (by simpa using hbegins)
    have hnext : Next c.rest (ascii a :: w) := by
      rw [← hw]
      exact next_token (h.begins u)
    have hnone : (operandWith (Grammar.upTo true 0)).run c = none :=
      run_bind_none (run_primary_none ha hnext)
    rw [hrun] at hnone
    cases hnone
  have hpoints : beginsWith "..." (t ++ u) = false := by
    by_contra hbegins
    obtain ⟨w, hw⟩ := exists_of_beginsWith_points (by simpa using hbegins)
    obtain ⟨node, hpoint⟩ := operandWith_points (Grammar.upTo true 0) (c := c) hw
    have hlength : t.length = 1 := by
      rw [hrun, Option.some.injEq, Prod.mk.injEq] at hpoint
      simpa [Cursor.past, c] using congrArg Cursor.offset hpoint.2
    obtain ⟨x, rfl⟩ := List.length_eq_one_iff.1 hlength
    obtain ⟨rfl, hrest⟩ := List.cons.inj hw
    exact hu.point rfl (congrArg List.head? hrest)
  rw [marksElement, hpoints, hsign "&" '&' rfl (.inl rfl), hsign "," ',' rfl (.inr (.inr (.inl rfl))),
    hsign ")" ')' rfl (.inr (.inl rfl))]
  rfl

/-- An expression begins with none of the signs that mark elements. -/
theorem Written.opens : ∀ {p : Written}, p.Proper → ∀ u, Ends p.last u →
    marksElement (p.text ++ u) = false
  | atom _, h, _, hu => opens_atom h hu
  | parenthesized _ _ _, _, _, _ => rfl
  | sign op _ _, h, _, _ => by
    have hop : op = 43 ∨ op = 45 ∨ op = 33 ∨ op = 126 := isSign_iff.1 h.1
    rcases hop with rfl | rfl | rfl | rfl <;> rfl
  | binary m l r, h, u, _ => by
    have hl := opens h.2.1 (m.before ++ (m.sign ++ (m.after ++ (r.text ++ u))))
      (h.1.ends h.2.2.text_ne_nil u)
    simpa [text] using hl

/-- What goes on in the same way and is read as no less. -/
theorem Part.Sound.imp {p q : Part} (h : p.Sound) (hbytes : q.bytes = p.bytes)
    (hpost : ∀ source x, p.post source x → q.post source x) (hgood : p.good ↔ q.good) : q.Sound where
  begins := hbytes ▸ h.begins
  opens := hbytes ▸ h.opens
  decides := fun _ _ _ hn => by
    rw [hbytes] at hn ⊢
    exact ((h.decides hn).mono (fun _ hu => hu) fun x hx => hpost _ x hx).congr hgood

/-- Whether a text can be read does not depend on what it is taken for. -/
theorem Part.Sound.good_iff {p q : Part} (hp : p.Sound) (hq : q.Sound) (h : p.bytes = q.bytes) :
    p.good ↔ q.good := by
  have hreads : ∀ {r : Part}, r.Sound → (r.good ↔ ((expressionWith
      (Grammar.upTo true r.bytes.length) Strength.any).run
        { rest := r.bytes, offset := 0, size := r.bytes.length }).isSome = true) := by
    intro r hr
    have hc : Cursor.Stands { rest := r.bytes, offset := 0, size := r.bytes.length } r.bytes false :=
      ⟨⟨rfl, rfl⟩, rfl, rfl⟩
    have hrest : r.bytes = r.bytes ++ [] := r.bytes.append_nil.symm
    have hdecides := @Part.Sound.decides r hr true r.bytes.length r.bytes (Nat.le_refl _)
    by_cases hgood : r.good
    · obtain ⟨x, hrun, -⟩ := hdecides.reads hgood hc hrest (closes_nil _)
      exact iff_of_true hgood (by rw [hrun]; rfl)
    · have hnone := hdecides.breaks hgood [] (closes_nil _) hc hrest
      exact iff_of_false hgood (by rw [hnone]; simp)
  rw [hreads hp, hreads hq, h]

/-- A text for any expression without declarations. -/
def barePart (t : Bytes) (good : Prop) : Part where
  bytes := t
  post := fun _ x => x.IsBare
  good := good

/-! ## Expressions -/

namespace Written

/-- An expression as a part of an array. -/
def part (p : Written) : Part where
  bytes := p.text
  post := fun source x => x.Spells source p ∧ x.IsBare
  good := p.Loose

/-- An expression whose operands stay where they are can be read unless two signs of it make one
token. -/
theorem sound {p : Written} (hp : p.Proper) (hb : p.Bound .grammar) : p.part.Sound where
  begins := begins hp
  opens := fun u hu => opens hp u (hu.follows.ends _)
  decides := by
    intro long n source hn
    refine ⟨fun hl c u hc hr hu => ?_, fun hl u hu c hc hr => ?_⟩
    · obtain ⟨x, hrun, hx⟩ := (reads hp (groupedBy_iff.2 ⟨hb, hl⟩)).2.expressionWith hn hc.toIn hc.mode hr
        (Nat.zero_le _) hu
      exact ⟨x, hrun, hx.spells, hx.bare⟩
    · exact (fails hp hb hl).2 hn hc.toIn hc.mode hr (Nat.zero_le _) (hu.follows.ends _)
        (hu.loose.mono (Nat.zero_le _))

/-- Any expression can be read unless two signs of it make one token. -/
theorem sound_bare {p : Written} (hp : p.Proper) : (barePart p.text p.Loose).Sound :=
  (sound (regroup_proper .grammar hp) (regroup_bound .grammar hp)).imp (regroup_text .grammar p).symm
    (fun _ _ hx => hx.2) (regroup_loose .grammar hp)

end Written

/-! ## Constants -/

/-- A text for a constant as a part of an array. -/
def constantPart (t : Bytes) (v : Literal) : Part where
  bytes := t
  post := fun source x => ∀ scope, constantOf source scope x = v
  good := True

/-- Wherever an expression is expected and nothing goes on the text, it is read as a constant. -/
def ReadsAs (t : Bytes) (v : Literal) : Prop := (constantPart t v).Sound

theorem ReadsAs.reads (h : ReadsAs t v) {long : Bool} {n : Nat} {source : Bytes} (hn : t.length ≤ n)
    (scope : ClassScope) : Reads source false (expressionWith (Grammar.upTo long n) Strength.any) t
      (Closes Strength.any) fun x => constantOf source scope x = v :=
  ((h.decides hn).reads trivial).mono (fun _ hu => hu) fun _ hx => hx scope

/-- What is grouped is read as what its parts denote. -/
theorem Written.Denotes.readsAs {p : Written} (hv : p.Denotes v) (hp : p.Proper) (hg : p.Grouped) :
    ReadsAs p.text v := by
  obtain ⟨hb, hl⟩ := Written.groupedBy_iff.1 hg
  exact (Written.sound hp hb).imp rfl (fun _ _ hx scope => hv.constantOf hx.1 scope)
    (iff_of_true hl trivial)

end FacadeStubs.Php
