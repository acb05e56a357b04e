import FacadeStubs.Proofs.Export.Forms
import FacadeStubs.Proofs.Export.Numbering
import FacadeStubs.Proofs.Export.Rereading

/-!
# Expressions whose value is kept

The text of an expression is read as an expression with the same value if no operand regroups with its
neighbours, if the smallest integer is not written, and if the keys of each array stay apart whatever
they turn out to be (`Kept`).

A key that is known is numbered and compared when the array is written. One that is not known counts
neither for the numbers of the entries behind it nor as the same key as another one. The array keeps
its value if this makes no difference (`Apart`).

Results:
* `Kept.carried`: the text of an expression without parts that are arrays denotes its value.
* `Kept.key`: a key is written so that it is read as the same key.
-/
namespace FacadeStubs.Export

open Php Lexical

section
variable {index : ClassIndex} {given : String → String → Key} {budget : Nat} {v w d : Literal}
  {c n : String} {s : Scalar} {x : Value}

theorem Means.constant (h : Means index given v x) (hv : reference? v = some (c, n)) :
    ConstantMeans index given c n x := by
  cases h with
  | classConst h => cases hv; exact h
  | lateStatic h => cases hv; exact h
  | _ => cases hv

theorem Means.followed (h : Means index given v x) (hv : reference? v = some (c, n))
    (hd : index.constant? c n = some d) : isClassWord n = false ∧ Means index given d x := by
  cases h.constant hv with
  | known hn hd' hx =>
    cases hd.symm.trans hd'
    exact ⟨hn, hx⟩
  | unknown _ hnone => cases hd.symm.trans hnone
  | name _ hnone => cases hd.symm.trans hnone

theorem Means.isExpr (h : Means index given v x) : v.isExpr = false := by
  cases h <;> rfl

/-! ## What folds -/

/-- The scalar that a key is known as. -/
def ArrayKey.scalar? : ArrayKey → Option Scalar
  | .int i => some (.int i)
  | .str s => some (.str s)
  | .verbatim _ => none

theorem scalarKey?_literal (s : Scalar) :
    ∃ x u, scalarKey? s.literal = some x ∧ x.scalar? = some u ∧ u.key = s.key := by
  cases s with
  | null => exact ⟨.str "", .str "", rfl, rfl, by decide +kernel⟩
  | bool b => exact ⟨_, _, rfl, rfl, rfl⟩
  | int i => exact ⟨_, _, rfl, rfl, rfl⟩
  | str s =>
    rw [Scalar.literal, scalarKey?]
    cases h : Decimal.canonicalInt? s with
    | some i => exact ⟨_, _, rfl, rfl, by simp [Scalar.key, h]⟩
    | none => exact ⟨_, _, rfl, rfl, rfl⟩

/-- What folds is written as what it folds to, as a value and as a key. -/
structure FoldsTo (index : ClassIndex) (budget : Nat) (v : Literal) (s : Scalar) : Prop where
  written : written index budget v = scalarWritten s.literal
  value : ∀ restart indent, value? (levelAt index restart budget) indent v = scalarText? s.literal
  key : ∀ restart, ∃ x u, keyOf? (levelAt index restart budget) v = some x ∧ x.scalar? = some u ∧
    u.key = s.key

theorem FoldsTo.scalar (index : ClassIndex) (budget : Nat) (s : Scalar) :
    FoldsTo index budget s.literal s := by
  obtain ⟨x, u, hx, hu⟩ := scalarKey?_literal s
  cases s with
  | null => exact ⟨by cases budget <;> rfl, fun _ _ => rfl, fun _ => ⟨x, u, hx, hu⟩⟩
  | bool b => exact ⟨by cases budget <;> rfl, fun _ _ => rfl, fun _ => ⟨x, u, hx, hu⟩⟩
  | int i => exact ⟨by cases budget <;> rfl, fun _ _ => rfl, fun _ => ⟨x, u, hx, hu⟩⟩
  | str s => exact ⟨by cases budget <;> rfl, fun _ _ => rfl, fun _ => ⟨x, u, hx, hu⟩⟩

theorem FoldsTo.operator (hv : isOperator v = true) (hfold : fold index budget v = some s.literal) :
    FoldsTo index budget v s where
  written := by
    cases v <;> cases hv
    · rw [written_binary, hfold]
      rfl
    · rw [written_unary, hfold]
      rfl
  value := by
    intro restart indent
    obtain ⟨text, htext⟩ : ∃ text, scalarText? s.literal = some text := by cases s <;> exact ⟨_, rfl⟩
    cases v <;> cases hv
    · rw [value?, levelAt_fold, hfold, Option.bind_some, htext]
    · rw [value?, levelAt_fold, hfold, Option.bind_some, htext]
  key := by
    intro restart
    obtain ⟨x, u, hx, hu⟩ := scalarKey?_literal s
    refine ⟨x, u, ?_, hu⟩
    rw [keyOf?_operator hv, levelAt_fold, hfold]
    exact hx

theorem FoldsTo.followed (h : FoldsTo index budget d s) (hv : reference? v = some (c, n))
    (hd : index.constant? c n = some d) : FoldsTo index (budget + 1) v s where
  written := (written_followed hv hd).trans h.written
  value := fun restart indent => (value?_followed restart indent hv hd).trans (h.value restart indent)
  key := fun restart => by
    rw [keyOf?_followed restart hv hd]
    exact h.key restart

theorem FoldsTo.className (hv : reference? v = some (c, n)) (hn : isClassWord n = true)
    (h : index.constant? c n = none) : FoldsTo index budget v (.str c) where
  written := by
    rw [written_unfollowed hv (.inr h), referenceWritten, if_pos hn]
    rfl
  value := fun restart indent => by
    rw [value?_unfollowed restart indent hv (.inr h), referenceText, if_pos hn]
    rfl
  key := fun restart => ⟨.str c, .str c, by
    rw [keyOf?_unfollowed restart hv (.inr h), if_pos hn], rfl, rfl⟩

/-- An expression folds to its value if its constants do. -/
theorem Means.foldsTo_of_constant (h : Means index given v (.scalar s))
    (hconstant : ∀ {c n d}, reference? v = some (c, n) → isClassWord n = false →
      index.constant? c n = some d → Means index given d (.scalar s) → FoldsTo index budget v s)
    (hw : Export.fold index budget v = some s.literal) : FoldsTo index budget v s := by
  have href : ∀ {c n}, reference? v = some (c, n) → ConstantMeans index given c n (.scalar s) →
      FoldsTo index budget v s := by
    intro c n hv hx
    cases hx with
    | known hn hd hx => exact hconstant hv hn hd hx
    | unknown hn hnone =>
      rw [fold_unfollowed hv hn (.inr hnone)] at hw
      cases hw
    | name hn hnone => exact .className hv hn hnone
  cases h with
  | null => exact .scalar index budget .null
  | bool b => exact .scalar index budget (.bool b)
  | int i => exact .scalar index budget (.int i)
  | str t => exact .scalar index budget (.str t)
  | classConst hx => exact href rfl hx
  | lateStatic hx => exact href rfl hx
  | unary _ _ => exact .operator rfl hw
  | binary _ _ _ => exact .operator rfl hw

/-- An expression that has a value is written as what it folds to. -/
theorem Means.foldsTo (h : Means index given v (.scalar s))
    (hw : Export.fold index budget v = some w) : w = s.literal ∧ FoldsTo index budget v s := by
  obtain ⟨_, hs, rfl⟩ := h.fold hw
  cases hs
  refine ⟨rfl, ?_⟩
  -- on the budget: the definition of a constant is no part of the expression
  induction budget generalizing v with
  | zero =>
    refine h.foldsTo_of_constant (fun hv hn _ _ => ?_) hw
    rw [fold_unfollowed hv hn (.inl rfl)] at hw
    cases hw
  | succ budget ih =>
    refine h.foldsTo_of_constant (fun hv hn hd hx => ?_) hw
    rw [fold_followed hv hn hd] at hw
    exact (ih hx hw).followed hv hd

/-! ## Scalars -/

theorem means_joinedLiteral {parts : List (List Char)} {t : String}
    (h : Means index given v (.scalar (.str t))) :
    Means index given (joinedLiteral v parts)
      (.scalar (.str (t ++ String.ofList (parts.flatMap fun part => '\x00' :: part)))) := by
  induction parts generalizing v t with
  | nil => simpa [joinedLiteral] using h
  | cons part parts ih =>
    have hjoin : ∀ a b, binary? "." (Scalar.str a).literal (Scalar.str b).literal =
        some (Scalar.str (a ++ b)).literal := fun _ _ => rfl
    have hnext := ih (.binary (.binary h (.str "\x00") (hjoin _ _)) (.str (String.ofList part))
      (hjoin _ _))
    have heq : t ++ "\x00" ++ String.ofList part ++
        String.ofList (parts.flatMap fun part => '\x00' :: part) =
        t ++ String.ofList ((part :: parts).flatMap fun part => '\x00' :: part) := by
      simp [← String.toList_inj]
    rwa [heq] at hnext

/-- The row that a string is read as has the string as its value. -/
theorem means_stringLiteral (t : String) :
    Means index given (stringLiteral t) (.scalar (.str t)) := by
  have hfirst : Means index given (.str (String.ofList (nulParts t.toList).1)) _ := .str _
  have hjoined : Means index given (stringLiteral t) _ := means_joinedLiteral hfirst
  rwa [← String.ofList_append, ← nulParts_eq, String.ofList_toList] at hjoined

theorem scalarText?_literal (s : Scalar) : ∃ t, scalarText? s.literal = some t := by
  cases s <;> exact ⟨_, rfl⟩

/-- The text of a scalar denotes it, but for the smallest integer. -/
theorem scalarWritten_denotes (hs : s.literal ≠ .int Int64.minValue) :
    ∃ w, (scalarWritten s.literal).Denotes w ∧ Means index given w (.scalar s) := by
  cases s with
  | null => exact ⟨_, .atom standsFor_null, .null⟩
  | bool b => exact ⟨_, .atom (standsFor_bool b), .bool b⟩
  | int i => exact ⟨_, intWritten_denotes fun hi => hs (by rw [hi]; rfl), .int i⟩
  | str t => exact ⟨_, stringWritten_denotes t, means_stringLiteral t⟩

/-! ## Expressions that are kept -/

/-- A class and a constant of it that can be addressed from the root. -/
structure Addressed (c n : String) : Prop where
  constant : isClassWord n = false
  path : IsPath c
  solid : Solid ('\\' :: c.toList)
  name : IsName (Utf8.bytesOf n)

/-- Expressions whose text has their value when `budget` references may still be followed. -/
inductive Kept (index : ClassIndex) (given : String → String → Key) : Nat → Literal → Prop
  | folded {budget : Nat} {v w : Literal} : fold index budget v = some w → w ≠ .int Int64.minValue →
      Kept index given budget v
  | followed {budget : Nat} {v d : Literal} {c n : String} : reference? v = some (c, n) →
      index.constant? c n = some d → Kept index given budget d → Kept index given (budget + 1) v
  | reference {budget : Nat} {v : Literal} {c n : String} : reference? v = some (c, n) →
      budget = 0 ∨ index.constant? c n = none → Addressed c n → Kept index given budget v
  | unary {budget : Nat} {op : Char} {v : Literal} : fold index budget (.unary op v) = none →
      (written index budget (.unary op v)).Grouped → Kept index given budget v →
      Kept index given budget (.unary op v)
  | binary {budget : Nat} {op : String} {l r : Literal} : fold index budget (.binary op l r) = none →
      (written index budget (.binary op l r)).Grouped → Kept index given budget l →
      Kept index given budget r → Kept index given budget (.binary op l r)
  | array {budget : Nat} {entries : List ArrayEntry} :
      (∀ marks, Marked index given (levelAt index (text? index) budget) 0 entries marks →
        Apart marks) →
      (∀ entry ∈ entries, ∀ w ∈ entry.parts, Kept index given budget w) →
      Kept index given budget (.array entries)

theorem Kept.array_of_marked {entries : List ArrayEntry} {marks : List Mark}
    (h : Marked index given (levelAt index (text? index) budget) 0 entries marks) (hmarks : Apart marks)
    (hparts : ∀ entry ∈ entries, ∀ w ∈ entry.parts, Kept index given budget w) :
    Kept index given budget (.array entries) :=
  .array (fun _ h' => h.unique h' ▸ hmarks) hparts

/-- An expression as it is written denotes its value. -/
structure Carried (index : ClassIndex) (given : String → String → Key) (budget : Nat) (v : Literal)
    (x : Value) : Prop where
  value : ∀ restart indent, ∃ t, value? (levelAt index restart budget) indent v = some t ∧
    Utf8.bytesOf t = (written index budget v).text
  proper : (written index budget v).Proper
  grouped : (written index budget v).Grouped
  /-- Only what folds is read as an integer, which a sign would become part of. -/
  denotes : ∃ w, (written index budget v).Denotes w ∧ Means index given w x ∧
    (Export.fold index budget v = none → ∀ i, w ≠ .int i)

theorem FoldsTo.carried (h : FoldsTo index budget v s) (hfold : Export.fold index budget v = some w)
    (hs : s.literal ≠ .int Int64.minValue) : Carried index given budget v (.scalar s) := by
  obtain ⟨t, ht⟩ := scalarText?_literal s
  refine ⟨fun restart indent => ⟨t, (h.value restart indent).trans ht, ?_⟩, ?_, ?_, ?_⟩
  · rw [h.written, scalarWritten_text ht]
  · rw [h.written]
    exact scalarWritten_proper ht
  · rw [h.written]
    exact scalarWritten_grouped ht
  · obtain ⟨u, hu, hx⟩ := scalarWritten_denotes hs
    rw [h.written]
    exact ⟨u, hu, hx, fun hnone => by rw [hfold] at hnone; cases hnone⟩

theorem Carried.followed (h : Carried index given budget d x) (hv : reference? v = some (c, n))
    (hn : isClassWord n = false) (hd : index.constant? c n = some d) :
    Carried index given (budget + 1) v x where
  value := fun restart indent => by
    rw [value?_followed restart indent hv hd, written_followed hv hd]
    exact h.value restart indent
  proper := by rw [written_followed hv hd]; exact h.proper
  grouped := by rw [written_followed hv hd]; exact h.grouped
  denotes := by rw [written_followed hv hd, fold_followed hv hn hd]; exact h.denotes

theorem Addressed.carried (h : Addressed c n) (hv : reference? v = some (c, n))
    (hnone : budget = 0 ∨ index.constant? c n = none) (hx : ConstantMeans index given c n x) :
    Carried index given budget v x := by
  have hwritten : written index budget v = .atom (Utf8.bytesOf ("\\" ++ c ++ "::" ++ n)) := by
    rw [written_unfollowed hv hnone, referenceWritten, if_neg (by simp [h.constant])]
  refine ⟨fun restart indent => ⟨_, value?_unfollowed restart indent hv hnone, ?_⟩, ?_, ?_, ?_⟩
  · rw [written_unfollowed hv hnone, referenceText_written]
  · rw [written_unfollowed hv hnone]
    exact referenceWritten_proper (.inr ⟨h.path, h.name⟩)
  · rw [hwritten]
    trivial
  · obtain ⟨segment, names, hpath, hnames⟩ := h.path
    have hrest : ∀ t ∈ names, IsName t := fun t ht => hnames t (List.mem_cons_of_mem segment ht)
    have hstands := standsFor_reference hpath (hnames segment List.mem_cons_self) hrest h.name h.solid
      h.constant
    rw [hwritten]
    exact ⟨.classConst c n, .atom hstands, .classConst hx, fun _ _ => by simp⟩

/-! ## Operators -/

theorem isUnary_of_unary? {op : Char} {a b : Literal} (h : unary? op a = some b) : IsUnary op := by
  unfold unary? at h
  split at h
  case h_1 | h_2 => exact .inr (.inl rfl)
  case h_3 | h_4 => exact .inl rfl
  case h_5 => exact .inr (.inr (.inl rfl))
  case h_6 => exact .inr (.inr (.inr rfl))
  case h_7 => cases h

theorem isBinary_of_bitOp? {op : String} {i j k : Int64} (h : bitOp? op i j = some k) : IsBinary op := by
  unfold bitOp? at h
  dsimp only at h
  split at h
  case h_7 => cases h
  all_goals decide

theorem isBinary_of_binary? {op : String} {a b w : Literal} (h : binary? op a b = some w) :
    IsBinary op := by
  unfold binary? at h
  split at h
  · rename_i hdot
    rw [beq_iff_eq.1 hdot]
    decide
  split at h
  · rename_i hnull
    rw [beq_iff_eq.1 hnull]
    decide
  split at h
  · rename_i harithmetic
    have hall : ∀ op ∈ ["+", "-", "*", "/", "**"], IsBinary op := by decide
    exact hall op (List.contains_iff_mem.1 harithmetic)
  split at h
  · obtain ⟨k, hk, -⟩ := Option.map_eq_some_iff.1 h
    exact isBinary_of_bitOp? hk
  · cases h

/-- A sign in front of what is no number stays one. -/
theorem Means.signedConstant? {op : Char} (h : Means index given w x) (hop : IsUnary op)
    (hint : ∀ i, w ≠ .int i) : Php.signedConstant? (some op) w = some (.unary op w) := by
  cases h with
  | int i => exact absurd rfl (hint i)
  | _ => rcases hop with rfl | rfl | rfl | rfl <;> rfl

/-- An operand denotes its value with and without parentheses. -/
theorem Carried.operand (h : Carried index given budget v (.scalar s))
    (hv : Means index given v (.scalar s)) :
    (operandWritten (Export.fold index budget v) v (written index budget v)).Proper ∧
    ∃ w, (operandWritten (Export.fold index budget v) v (written index budget v)).Denotes w ∧
      Means index given w (.scalar s) ∧ (Export.fold index budget v = none → ∀ i, w ≠ .int i) := by
  cases hfold : Export.fold index budget v with
  | some u =>
    -- as an operand and on its own it is written as the same scalar
    obtain ⟨rfl, hfolds⟩ := hv.foldsTo hfold
    rw [operandWritten, foldedWritten, ← hfolds.written]
    exact ⟨h.proper, hfold ▸ h.denotes⟩
  | none =>
    obtain ⟨w, hw, hx, hint⟩ := h.denotes
    rw [operandWritten, foldedWritten]
    split
    · exact ⟨⟨.nil, h.proper, .nil⟩, w, .parenthesized hw, hx, fun _ => hint hfold⟩
    · exact ⟨h.proper, w, hw, hx, fun _ => hint hfold⟩

theorem Carried.unary {op : Char} {a : Scalar} (h : Carried index given budget v (.scalar a))
    (hv : Means index given v (.scalar a)) (hs : unary? op a.literal = some s.literal)
    (hfold : Export.fold index budget (.unary op v) = none)
    (hgrouped : (written index budget (.unary op v)).Grouped) :
    Carried index given budget (.unary op v) (.scalar s) := by
  have hop := isUnary_of_unary? hs
  have hwritten : written index budget (.unary op v) = .sign op.toNat.toUInt8 []
      (operandWritten (Export.fold index budget v) v (written index budget v)) := by
    rw [written_unary, hfold]
    rfl
  -- an operand that folds would leave nothing of the sign
  have hoperand : Export.fold index budget v = none := by
    refine Option.eq_none_iff_forall_ne_some.2 fun u hu => ?_
    obtain ⟨rfl, -⟩ := hv.foldsTo hu
    obtain ⟨reference, hreference⟩ := fold_succ_or_zero index budget
    rw [hreference] at hfold hu
    rw [foldWith, hu, Option.bind_some, hs] at hfold
    cases hfold
  obtain ⟨hproper, w, hw, hx, hint⟩ := h.operand hv
  refine ⟨fun restart indent => ?_, ?_, hgrouped, ?_⟩
  · obtain ⟨t, hvalue, ht⟩ := h.value restart 0
    have htext := value?_unary (fold_levelAt_scalar restart) hop hvalue ht indent
    rwa [levelAt_fold, ← written_unary] at htext
  · rw [hwritten]
    exact ⟨(sign_spec hop).1, .nil, hproper⟩
  · obtain ⟨t, hvalue, ht⟩ := h.value (fun _ => none) 0
    obtain ⟨t, -, ht⟩ := operandText?_written (fold_levelAt_scalar fun _ => none) (v := v) ht
    rw [levelAt_fold] at ht
    rw [hwritten]
    exact ⟨.unary op w, .sign hop ht.symm hw (hx.signedConstant? hop (hint hoperand)), .unary hx hs,
      fun _ => by simp⟩

theorem Carried.binary {op : String} {l r : Literal} {a b : Scalar}
    (hl : Carried index given budget l (.scalar a)) (hr : Carried index given budget r (.scalar b))
    (ha : Means index given l (.scalar a)) (hb : Means index given r (.scalar b))
    (hs : binary? op a.literal b.literal = some s.literal)
    (hfold : Export.fold index budget (.binary op l r) = none)
    (hgrouped : (written index budget (.binary op l r)).Grouped) :
    Carried index given budget (.binary op l r) (.scalar s) := by
  have hop := isBinary_of_binary? hs
  obtain ⟨hmem, htext⟩ := operatorOf_spec hop
  have hwritten : written index budget (.binary op l r) = .binary (operatorOf op).mark
      (operandWritten (Export.fold index budget l) l (written index budget l))
      (operandWritten (Export.fold index budget r) r (written index budget r)) := by
    rw [written_binary, hfold]
    rfl
  obtain ⟨hproper, w, hw, hx, -⟩ := hl.operand ha
  obtain ⟨hproper', w', hw', hx', -⟩ := hr.operand hb
  refine ⟨fun restart indent => ?_, ?_, hgrouped, ?_⟩
  · obtain ⟨t, hvalue, ht⟩ := hl.value restart 0
    obtain ⟨t', hvalue', ht'⟩ := hr.value restart 0
    have htext := value?_binary (fold_levelAt_scalar restart) hop hvalue ht hvalue' ht' indent
    rwa [levelAt_fold, ← written_binary] at htext
  · rw [hwritten]
    exact ⟨fits_mark hmem _ _, hproper, hproper'⟩
  · rw [hwritten]
    have hdenotes := hw.binary hmem hw' (by rw [hx.isExpr]; rfl)
    rw [htext] at hdenotes
    exact ⟨_, hdenotes, .binary hx hx' hs, fun _ => by simp⟩

/-- The text of an expression that is kept and has a scalar as its value denotes it. -/
theorem Kept.carried (h : Kept index given budget v) (hv : Means index given v (.scalar s)) :
    Carried index given budget v (.scalar s) := by
  induction h generalizing s with
  | folded hfold hleast =>
    obtain ⟨rfl, hfolds⟩ := hv.foldsTo hfold
    exact hfolds.carried hfold hleast
  | followed href hd _ ih =>
    obtain ⟨hn, hx⟩ := hv.followed href hd
    exact (ih hx).followed href hn hd
  | reference href hnone haddressed => exact haddressed.carried href hnone (hv.constant href)
  | unary hfold hgrouped _ ih =>
    cases hv with
    | unary hx hs => exact (ih hx).unary hx hs hfold hgrouped
  | binary hfold hgrouped _ _ ihl ihr =>
    cases hv with
    | binary hl hr hs => exact (ihl hl).binary (ihr hr) hl hr hs hfold hgrouped
  | array _ _ _ => cases hv

/-- The text of an expression as it is written is read as an expression with its value. -/
theorem Carried.reads (h : Carried index given budget v x) (restart : Literal → Option String)
    (indent : Nat) : ∃ t w, value? (levelAt index restart budget) indent v = some t ∧
      ReadsAs (Utf8.bytesOf t) w ∧ Means index given w x := by
  obtain ⟨t, hvalue, ht⟩ := h.value restart indent
  obtain ⟨w, hw, hx, -⟩ := h.denotes
  exact ⟨t, w, hvalue, ht ▸ hw.readsAs h.proper h.grouped, hx⟩

/-! ## Keys -/

/-- A written key is read as an expression that is the key `k`. A number is that key itself. -/
structure ArrayKey.Stands (index : ClassIndex) (given : String → String → Key) (written : ArrayKey)
    (k : Key) : Prop where
  number : ∀ i, written = .int i → k = .int i
  reads : written ≠ .int Int64.minValue → ∃ w s, ReadsAs (Utf8.bytesOf written.text) w ∧
    Means index given w (.scalar s) ∧ s.key = k

theorem ArrayKey.stands_of_scalar {written : ArrayKey} (h : written.scalar? = some s) :
    written.Stands index given s.key := by
  have htext : scalarText? s.literal = some written.text := by
    cases written <;> cases h <;> rfl
  refine ⟨fun i hi => ?_, fun hleast => ?_⟩
  · subst hi
    cases h
    rfl
  · have hs : s.literal ≠ .int Int64.minValue := by
      rintro hs
      cases written <;> cases h <;> cases hs
      exact hleast rfl
    obtain ⟨w, hw, hx⟩ := scalarWritten_denotes hs
    have hreads := hw.readsAs (scalarWritten_proper htext) (scalarWritten_grouped htext)
    rw [scalarWritten_text htext] at hreads
    exact ⟨w, s, hreads, hx, rfl⟩

/-- A key that is written as the text of a value is that value. -/
theorem Carried.key (h : Carried index given budget v (.scalar s)) (restart : Literal → Option String)
    (hkey : keyOf? (levelAt index restart budget) v =
      (value? (levelAt index restart budget) 0 v).map .verbatim) :
    ∃ k, keyOf? (levelAt index restart budget) v = some k ∧ k.Stands index given s.key := by
  obtain ⟨t, w, hvalue, hw, hx⟩ := h.reads restart 0
  exact ⟨.verbatim t, by rw [hkey, hvalue]; rfl, nofun, fun _ => ⟨w, s, hw, hx, rfl⟩⟩

/-- A key that is kept is written so that it is read as the same key. -/
theorem Kept.key (h : Kept index given budget v) (hv : Means index given v (.scalar s))
    (restart : Literal → Option String) :
    ∃ k, keyOf? (levelAt index restart budget) v = some k ∧ k.Stands index given s.key := by
  induction h generalizing s with
  | folded hfold _ =>
    obtain ⟨k, u, hk, hu, heq⟩ := (hv.foldsTo hfold).2.key restart
    exact ⟨k, hk, heq ▸ ArrayKey.stands_of_scalar hu⟩
  | followed href hd _ ih =>
    rw [keyOf?_followed restart href hd]
    exact ih (hv.followed href hd).2
  | reference href hnone haddressed =>
    refine (haddressed.carried href hnone (hv.constant href)).key restart ?_
    rw [keyOf?_unfollowed restart href hnone, value?_unfollowed restart 0 href hnone, referenceText,
      haddressed.constant]
    rfl
  | unary hfold hgrouped hkept _ =>
    refine ((Kept.unary hfold hgrouped hkept).carried hv).key restart ?_
    rw [keyOf?_operator rfl, levelAt_fold, hfold]
  | binary hfold hgrouped hl hr _ _ =>
    refine ((Kept.binary hfold hgrouped hl hr).carried hv).key restart ?_
    rw [keyOf?_operator rfl, levelAt_fold, hfold]
  | array _ _ _ => cases hv

end

end FacadeStubs.Export
