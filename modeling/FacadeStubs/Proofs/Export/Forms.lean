import FacadeStubs.Proofs.Export.Termination

/-!
# Written forms

An expression of scalars, references, operators and source text is written in one way, but for the source
text: any expression with its text will do. `Writes` says as what an expression is written when references
may still be followed, and whatever it says has the text that is exported.

Results:
* `Writes.proper`: the parts of what is written are what they are written as.
* `Writes.exists_value?`: the text of an expression is that of what it is written as, wherever it stands,
  and `Writes.text`: so is what is exported.
* `Plain.writes`: without source text, an expression is written as `written` has it.
-/
namespace FacadeStubs.Export

open Php

/-! ## References -/

section
variable {index : ClassIndex} {budget : Nat} {v d : Literal} {c n : String}

theorem written_followed (hv : reference? v = some (c, n)) (hd : index.constant? c n = some d) :
    written index (budget + 1) v = written index budget d := by
  cases v <;> cases hv <;> simp only [written, writtenWith, hd]

theorem value?_followed (restart : Literal → Option String) (indent : Nat)
    (hv : reference? v = some (c, n)) (hd : index.constant? c n = some d) :
    value? (levelAt index restart (budget + 1)) indent v =
      value? (levelAt index restart budget) indent d := by
  rw [value?_reference hv, constantText?]
  simp only [levelAt, hd]

theorem keyOf?_followed (restart : Literal → Option String) (hv : reference? v = some (c, n))
    (hd : index.constant? c n = some d) :
    keyOf? (levelAt index restart (budget + 1)) v = keyOf? (levelAt index restart budget) d := by
  rw [keyOf?_reference hv, constantKey?]
  simp only [levelAt, hd]

theorem fold_followed (hv : reference? v = some (c, n)) (hn : isClassWord n = false)
    (hd : index.constant? c n = some d) : fold index (budget + 1) v = fold index budget d := by
  cases v <;> cases hv <;> simp [fold, foldWith, hn, hd]

theorem follow_none (restart : Literal → Option String) (h : budget = 0 ∨ index.constant? c n = none) :
    (levelAt index restart budget).follow c n = none := by
  obtain rfl | h := h
  · rfl
  · cases budget with
    | zero => rfl
    | succ budget => exact h

theorem written_unfollowed (hv : reference? v = some (c, n))
    (h : budget = 0 ∨ index.constant? c n = none) : written index budget v = referenceWritten c n := by
  cases budget with
  | zero => cases v <;> cases hv <;> rfl
  | succ budget =>
    obtain h | h := h
    · cases h
    · cases v <;> cases hv <;> simp only [written, writtenWith, h]

theorem value?_unfollowed (restart : Literal → Option String) (indent : Nat)
    (hv : reference? v = some (c, n)) (h : budget = 0 ∨ index.constant? c n = none) :
    value? (levelAt index restart budget) indent v = some (referenceText c n) := by
  rw [value?_reference hv, constantText?, follow_none restart h]

theorem keyOf?_unfollowed (restart : Literal → Option String) (hv : reference? v = some (c, n))
    (h : budget = 0 ∨ index.constant? c n = none) :
    keyOf? (levelAt index restart budget) v =
      some (if isClassWord n then .str c else .verbatim ("\\" ++ c ++ "::" ++ n)) := by
  rw [keyOf?_reference hv, constantKey?, follow_none restart h]

theorem fold_unfollowed (hv : reference? v = some (c, n)) (hn : isClassWord n = false)
    (h : budget = 0 ∨ index.constant? c n = none) : fold index budget v = none := by
  cases budget with
  | zero => cases v <;> cases hv <;> simp [fold, foldWith, hn]
  | succ budget =>
    obtain h | h := h
    · cases h
    · cases v <;> cases hv <;> simp [fold, foldWith, hn, h]

theorem written_unary (index : ClassIndex) (budget : Nat) (op : Char) (v : Literal) :
    written index budget (.unary op v) = foldedWritten (fold index budget (.unary op v))
      (.sign op.toNat.toUInt8 []
        (operandWritten (fold index budget v) v (written index budget v))) := by
  cases budget <;> rfl

theorem written_binary (index : ClassIndex) (budget : Nat) (op : String) (l r : Literal) :
    written index budget (.binary op l r) = foldedWritten (fold index budget (.binary op l r))
      (.binary (operatorOf op).mark (operandWritten (fold index budget l) l (written index budget l))
        (operandWritten (fold index budget r) r (written index budget r))) := by
  cases budget <;> rfl

end

/-! ## What is written -/

/-- As what an expression is written when `budget` references may still be followed. -/
inductive Writes (index : ClassIndex) : Nat → Literal → Written → Prop
  | scalar {budget : Nat} {v : Literal} {t : String} : scalarText? v = some t →
      Writes index budget v (scalarWritten v)
  | source {budget : Nat} {s : String} {w : Written} : w.Proper → w.text = Utf8.bytesOf s →
      Writes index budget (.expr s) w
  | unfollowed {budget : Nat} {v : Literal} {c n : String} : reference? v = some (c, n) → Named c n →
      budget = 0 ∨ index.constant? c n = none → Writes index budget v (referenceWritten c n)
  | followed {budget : Nat} {v d : Literal} {c n : String} {w : Written} : reference? v = some (c, n) →
      index.constant? c n = some d → Writes index budget d w → Writes index (budget + 1) v w
  | unary {budget : Nat} {op : Char} {v : Literal} {w : Written} : IsUnary op → Writes index budget v w →
      Writes index budget (.unary op v) (foldedWritten (fold index budget (.unary op v))
        (.sign op.toNat.toUInt8 [] (operandWritten (fold index budget v) v w)))
  | binary {budget : Nat} {op : String} {l r : Literal} {left right : Written} : IsBinary op →
      Writes index budget l left → Writes index budget r right →
      Writes index budget (.binary op l r) (foldedWritten (fold index budget (.binary op l r))
        (.binary (operatorOf op).mark (operandWritten (fold index budget l) l left)
          (operandWritten (fold index budget r) r right)))

namespace Writes

variable {index : ClassIndex} {budget : Nat} {v : Literal} {w : Written}

theorem proper (h : Writes index budget v w) : w.Proper := by
  induction h with
  | scalar ht => exact scalarWritten_proper ht
  | source hw _ => exact hw
  | unfollowed _ hnamed _ => exact referenceWritten_proper hnamed
  | followed _ _ _ ih => exact ih
  | unary hop _ ih =>
    exact foldedWritten_proper (fun _ _ => fold_scalar) ⟨(sign_spec hop).1, .nil,
      operandWritten_proper (fun _ _ => fold_scalar) ih⟩
  | binary hop _ _ ihl ihr =>
    exact foldedWritten_proper (fun _ _ => fold_scalar) ⟨fits_mark (operatorOf_spec hop).1 _ _,
      operandWritten_proper (fun _ _ => fold_scalar) ihl,
      operandWritten_proper (fun _ _ => fold_scalar) ihr⟩

/-- Wherever an expression stands, its text is that of what it is written as. -/
theorem exists_value? (h : Writes index budget v w) (restart : Literal → Option String) (indent : Nat) :
    ∃ t, value? (levelAt index restart budget) indent v = some t ∧ Utf8.bytesOf t = w.text := by
  induction h generalizing indent with
  | @scalar budget v t ht =>
    refine ⟨t, ?_, (scalarWritten_text ht).symm⟩
    rw [← ht]
    cases v <;> first | rfl | cases ht
  | source _ htext => exact ⟨_, rfl, htext.symm⟩
  | unfollowed hv _ hnone =>
    exact ⟨_, value?_unfollowed restart indent hv hnone, referenceText_written _ _⟩
  | followed hv hd _ ih =>
    rw [value?_followed restart indent hv hd]
    exact ih indent
  | unary hop _ ih =>
    obtain ⟨t, hval, htext⟩ := ih 0
    have hunary := value?_unary (fold_levelAt_scalar restart) hop hval htext indent
    rwa [levelAt_fold] at hunary
  | binary hop _ _ ihl ihr =>
    obtain ⟨t, hval, htext⟩ := ihl 0
    obtain ⟨t', hval', htext'⟩ := ihr 0
    have hbinary := value?_binary (fold_levelAt_scalar restart) hop hval htext hval' htext' indent
    rwa [levelAt_fold] at hbinary

/-- An expression is exported as the text of what it is written as, and has this text everywhere. -/
theorem text (h : Writes index maxDepth v w) : Utf8.bytesOf (Export.text index v) = w.text ∧
    ∀ restart indent, value? (levelAt index restart maxDepth) indent v = some (Export.text index v) := by
  obtain ⟨t, hval, htext⟩ := h.exists_value? (textWithin? index (indexArrayCount index + arrayCount v)) 0
  have hsome : text? index v = some t := hval
  have heq : Export.text index v = t := by rw [Export.text, hsome]; rfl
  rw [heq]
  refine ⟨htext, fun restart indent => ?_⟩
  obtain ⟨t', hval', htext'⟩ := h.exists_value? restart indent
  rw [hval', Utf8.bytesOf_inj (htext'.trans htext.symm)]

end Writes

section
variable {index : ClassIndex} {budget : Nat} {v l r d : Literal} {c n : String}

theorem Plain.followed (h : Plain index (budget + 1) v) (hv : reference? v = some (c, n))
    (hd : index.constant? c n = some d) : Plain index budget d := by
  cases v <;> cases hv <;> simpa only [Plain, PlainWith, hd] using h

theorem Plain.unfollowed (h : Plain index budget v) (hv : reference? v = some (c, n))
    (hnone : budget = 0 ∨ index.constant? c n = none) : Named c n := by
  cases budget with
  | zero => cases v <;> cases hv <;> exact h
  | succ budget =>
    obtain hzero | hnone := hnone
    · cases hzero
    · cases v <;> cases hv <;> simpa only [Plain, PlainWith, hnone] using h

theorem Plain.unary {op : Char} (h : Plain index budget (.unary op v)) :
    IsUnary op ∧ Plain index budget v := by
  cases budget <;> exact h

theorem Plain.binary {op : String} (h : Plain index budget (.binary op l r)) :
    IsBinary op ∧ Plain index budget l ∧ Plain index budget r := by
  cases budget <;> exact h

theorem written_scalar {t : String} (h : scalarText? v = some t) :
    written index budget v = scalarWritten v := by
  cases budget <;> cases v <;> first | rfl | cases h

theorem writes_scalar {t : String} (h : scalarText? v = some t) :
    Writes index budget v (written index budget v) :=
  by
  rw [written_scalar h]
  exact .scalar h

end

/-- If references are written as `written` has them, expressions of them are. -/
theorem writes_of_references {index : ClassIndex} {budget : Nat}
    (href : ∀ {v : Literal} {c n : String}, reference? v = some (c, n) → Plain index budget v →
      Writes index budget v (written index budget v)) :
    ∀ {v : Literal}, Plain index budget v → Writes index budget v (written index budget v)
  | .null, _ | .bool _, _ | .int _, _ | .float _, _ | .str _, _ => writes_scalar rfl
  | .classConst _ _, h | .lateStatic _ _, h => href rfl h
  | .unary op v, h => by
    rw [written_unary]
    exact .unary h.unary.1 (writes_of_references href h.unary.2)
  | .binary op l r, h => by
    rw [written_binary]
    exact .binary h.binary.1 (writes_of_references href h.binary.2.1)
      (writes_of_references href h.binary.2.2)
  | .array _, h | .expr _, h => by cases budget <;> exact h.elim

/-- An expression without source text is written as `written` has it. -/
theorem Plain.writes {index : ClassIndex} {budget : Nat} {v : Literal} (h : Plain index budget v) :
    Writes index budget v (written index budget v) := by
  -- on the budget: a definition is followed with less of it
  induction budget generalizing v with
  | zero =>
    refine writes_of_references (fun hv hplain => ?_) h
    rw [written_unfollowed hv (.inl rfl)]
    exact .unfollowed hv (hplain.unfollowed hv (.inl rfl)) (.inl rfl)
  | succ budget ih =>
    refine writes_of_references (fun {v c n} hv hplain => ?_) h
    cases hd : index.constant? c n with
    | some d =>
      rw [written_followed hv hd]
      exact .followed hv hd (ih (hplain.followed hv hd))
    | none =>
      rw [written_unfollowed hv (.inr hd)]
      exact .unfollowed hv (hplain.unfollowed hv (.inr hd)) (.inr hd)

end FacadeStubs.Export
