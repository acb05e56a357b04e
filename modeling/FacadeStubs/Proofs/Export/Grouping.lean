import FacadeStubs.Export.Text
import FacadeStubs.Proofs.Export.Scalars
import FacadeStubs.Proofs.Reader.Trees

/-!
# The operators of an exported expression

An exported expression keeps its tree of operators if every operand stays where it is written.
Operators as operands stand in parentheses, but parentheses are decided before constants are
followed: a definition that is put in the place of a constant stands there without them, and so do
the parts of a string that are joined around NUL characters and the sign of a negative number.

Texts are read with the operators of the grammar (`Table.grammar`), in which a sign in front of an operand
binds more tightly than `**`. In PHP the sign is the weaker of the two, so a negative number in front of
`**` is read in two ways: as the left operand there, and as the sign of the power by PHP (`Table.php`).

`tree` is the tree of an expression, with what folds replaced by its value and indexed constants
replaced by their definitions; `written` is the expression with the parentheses that its text has.

Results:
* `text_written`: the text of an expression is that of `written`, and `written_tree`: so is its tree.
* `readTree?_text_iff_grouped`: the text is read as the tree of the expression exactly if all operands
  stay where they are written.
-/
namespace FacadeStubs.Export

open Php

/-! ## Expressions and their trees -/

/-- Operators between two operands. -/
def IsBinary (op : String) : Prop := ∃ o ∈ operators, o.text = op

/-- Signs in front of an operand. -/
def IsUnary (op : Char) : Prop := op = '+' ∨ op = '-' ∨ op = '!' ∨ op = '~'

instance (op : String) : Decidable (IsBinary op) := inferInstanceAs (Decidable (∃ _ ∈ _, _))

instance (op : Char) : Decidable (IsUnary op) := inferInstanceAs (Decidable (_ ∨ _))

/-- A class by its full name and a constant of it. The keyword for the name of the class is a
constant of any class. -/
def Named (c n : String) : Prop := isClassWord n = true ∨ IsPath c ∧ IsName (Utf8.bytesOf n)

/-- Expressions of scalars, references and operators, given what references there may be. -/
def PlainWith (reference : String → String → Prop) : Literal → Prop
  | .classConst c n => reference c n
  | .lateStatic c n => reference c n
  | .unary op v => IsUnary op ∧ PlainWith reference v
  | .binary op l r => IsBinary op ∧ PlainWith reference l ∧ PlainWith reference r
  | .array _ => False
  | .expr _ => False
  | _ => True

/-- Expressions of scalars, references and operators, with all definitions that are reached when
`budget` references may still be followed. -/
def Plain (index : ClassIndex) : Nat → Literal → Prop
  | 0 => PlainWith Named
  | budget + 1 => PlainWith fun c n =>
    match index.constant? c n with
    | some definition => Plain index budget definition
    | none => Named c n

/-- The tree of a scalar: one atom, behind a sign if it is negative; strings are joined where NUL
characters stand in them. -/
def scalarTree (v : Literal) : OperatorTree := (scalarWritten v).tree

/-- The tree of a reference that is not followed. -/
def referenceTree (c n : String) : OperatorTree :=
  if isClassWord n then scalarTree (.str c) else .atom (Utf8.bytesOf ("\\" ++ c ++ "::" ++ n))

/-- The tree of an expression that may fold. -/
def foldedTree (folded : Option Literal) (own : OperatorTree) : OperatorTree :=
  match folded with
  | some v => scalarTree v
  | none => own

/-- The tree of an expression, given how its parts fold and what its references stand for. -/
def treeWith (fold : Literal → Option Literal) (reference : String → String → OperatorTree) :
    Literal → OperatorTree
  | .classConst c n => reference c n
  | .lateStatic c n => reference c n
  | .unary op v => foldedTree (fold (.unary op v))
      (.sign op.toNat.toUInt8 (foldedTree (fold v) (treeWith fold reference v)))
  | .binary op l r => foldedTree (fold (.binary op l r))
      (.binary (Utf8.bytesOf op) (foldedTree (fold l) (treeWith fold reference l))
        (foldedTree (fold r) (treeWith fold reference r)))
  | v => scalarTree v

/-- The tree of an expression when `budget` references may still be followed. -/
def tree (index : ClassIndex) : Nat → Literal → OperatorTree
  | 0 => treeWith (fold index 0) referenceTree
  | budget + 1 => treeWith (fold index (budget + 1)) fun c n =>
    match index.constant? c n with
    | some definition => tree index budget definition
    | none => referenceTree c n

/-! ## Expressions as they are written -/

/-- The operator with a given text. -/
def operatorOf (op : String) : BinaryOperator := (operators.find? (·.text == op)).getD dot

/-- A reference that is not followed, as an expression. -/
def referenceWritten (c n : String) : Written :=
  if isClassWord n then stringWritten c else .atom (Utf8.bytesOf ("\\" ++ c ++ "::" ++ n))

/-- An operator as it is written: its value if it folds. -/
def foldedWritten (folded : Option Literal) (own : Written) : Written :=
  match folded with
  | some v => scalarWritten v
  | none => own

/-- An operand as it is written. -/
def operandWritten (folded : Option Literal) (v : Literal) (own : Written) : Written :=
  foldedWritten folded (if isOperator v then .parenthesized [] own [] else own)

/-- An expression as it is written, given how its parts fold and how its references are written. -/
def writtenWith (fold : Literal → Option Literal) (reference : String → String → Written) :
    Literal → Written
  | .classConst c n => reference c n
  | .lateStatic c n => reference c n
  | .unary op v => foldedWritten (fold (.unary op v))
      (.sign op.toNat.toUInt8 [] (operandWritten (fold v) v (writtenWith fold reference v)))
  | .binary op l r => foldedWritten (fold (.binary op l r))
      (.binary (operatorOf op).mark (operandWritten (fold l) l (writtenWith fold reference l))
        (operandWritten (fold r) r (writtenWith fold reference r)))
  | v => scalarWritten v

/-- An expression as it is written when `budget` references may still be followed. -/
def written (index : ClassIndex) : Nat → Literal → Written
  | 0 => writtenWith (fold index 0) referenceWritten
  | budget + 1 => writtenWith (fold index (budget + 1)) fun c n =>
    match index.constant? c n with
    | some definition => written index budget definition
    | none => referenceWritten c n

/-! ### Folding gives scalars -/

theorem binary?_scalar {op : String} {a b v : Literal} (ha : (scalarText? a).isSome = true)
    (hb : (scalarText? b).isSome = true) (h : binary? op a b = some v) :
    (scalarText? v).isSome = true := by
  unfold binary? at h
  split at h
  · split at h
    · cases h
      rfl
    · cases h
  · split at h
    · split at h
      · cases h
        exact hb
      · cases h
        exact ha
    · split at h
      · unfold arithmetic? at h
        dsimp only at h
        split at h
        · cases h
          rfl
        · split at h
          · obtain ⟨f, -, rfl⟩ := Option.map_eq_some_iff.1 h
            rfl
          · cases h
      · split at h
        · obtain ⟨i, -, rfl⟩ := Option.map_eq_some_iff.1 h
          rfl
        · cases h

theorem unary?_scalar {op : Char} {a v : Literal} (h : unary? op a = some v) :
    (scalarText? v).isSome = true := by
  unfold unary? at h
  split at h
  · obtain ⟨i, -, rfl⟩ := Option.map_eq_some_iff.1 h
    rfl
  · cases h; rfl
  · cases h; rfl
  · cases h; rfl
  · cases h; rfl
  · cases h; rfl
  · cases h

theorem foldWith_scalar {reference : String → String → Option Literal}
    (href : ∀ c n v, reference c n = some v → (scalarText? v).isSome = true) :
    ∀ {u v : Literal}, foldWith reference u = some v → (scalarText? v).isSome = true
  | .null, _, h | .bool _, _, h | .int _, _, h | .float _, _, h | .str _, _, h => by
    cases h
    rfl
  | .classConst c n, v, h | .lateStatic c n, v, h => by
    rw [foldWith] at h
    split at h
    · cases h
      rfl
    · exact href c n v h
  | .binary op l r, v, h => by
    rw [foldWith] at h
    split at h
    · rename_i a b ha hb
      exact binary?_scalar (foldWith_scalar href ha) (foldWith_scalar href hb) h
    · cases h
  | .unary op u, v, h => by
    rw [foldWith] at h
    obtain ⟨a, -, ha⟩ := Option.bind_eq_some_iff.1 h
    exact unary?_scalar ha
  | .array _, _, h | .expr _, _, h => by cases h

theorem fold_scalar {index : ClassIndex} {budget : Nat} {u v : Literal}
    (h : fold index budget u = some v) : (scalarText? v).isSome = true := by
  induction budget generalizing u v with
  | zero => exact foldWith_scalar (fun _ _ _ h => by cases h) h
  | succ budget ih =>
    refine foldWith_scalar (fun c n v h => ?_) h
    obtain ⟨d, -, hd⟩ := Option.bind_eq_some_iff.1 h
    exact ih hd

/-! ### The text of an expression -/

section
variable {fold : Literal → Option Literal} {ok : String → String → Prop}
  {reference : String → String → Written}

/-- What folds is written as the text of its value. -/
theorem scalarText?_fold (hfold : ∀ u v, fold u = some v → (scalarText? v).isSome = true)
    {u v : Literal} (h : fold u = some v) :
    ∃ t, (fold u).bind scalarText? = some t ∧ Utf8.bytesOf t = (scalarWritten v).text := by
  obtain ⟨t, ht⟩ := Option.isSome_iff_exists.1 (hfold u v h)
  exact ⟨t, by rw [h]; exact ht, (scalarWritten_text ht).symm⟩

theorem operatorOf_spec {op : String} (h : IsBinary op) :
    operatorOf op ∈ operators ∧ (operatorOf op).text = op := by
  obtain ⟨o, ho, rfl⟩ := h
  have hsome : (operators.find? (·.text == o.text)).isSome = true :=
    List.find?_isSome.2 ⟨o, ho, beq_self_eq_true _⟩
  obtain ⟨o', ho'⟩ := Option.isSome_iff_exists.1 hsome
  rw [operatorOf, ho']
  exact ⟨List.mem_of_find?_eq_some ho', by simpa using List.find?_some ho'⟩

theorem sign_spec {op : Char} (h : IsUnary op) :
    isSign op.toNat.toUInt8 = true ∧ Utf8.bytesOf op.toString = [op.toNat.toUInt8] := by
  rcases h with rfl | rfl | rfl | rfl <;> exact ⟨rfl, rfl⟩

/-- The text of an operand, from its text as a value. -/
theorem operandText?_written {level : Level}
    (hfold : ∀ u v, level.fold u = some v → (scalarText? v).isSome = true) {v : Literal} {t : String}
    {own : Written} (ht : Utf8.bytesOf t = own.text) :
    ∃ s, operandText? level v (some t) = some s ∧
      Utf8.bytesOf s = (operandWritten (level.fold v) v own).text := by
  unfold operandText? operandWritten
  cases hv : level.fold v with
  | some u =>
    obtain ⟨s, hs, htext⟩ := scalarText?_fold hfold hv
    rw [hv] at hs
    exact ⟨s, by rw [hs], htext⟩
  | none =>
    simp only [Option.bind_none, foldedWritten]
    split
    · refine ⟨_, rfl, ?_⟩
      have hopen : Utf8.bytesOf "(" = [40] := rfl
      have hclose : Utf8.bytesOf ")" = [41] := rfl
      simp [Utf8.bytesOf_append, ht, Written.text, hopen, hclose]
    · exact ⟨t, rfl, ht⟩

/-- The text of a sign in front of an operand, from the text of the operand as a value. -/
theorem value?_unary {level : Level}
    (hfold : ∀ u v, level.fold u = some v → (scalarText? v).isSome = true) {op : Char} {v : Literal}
    {t : String} {own : Written} (hop : IsUnary op) (hval : value? level 0 v = some t)
    (ht : Utf8.bytesOf t = own.text) (indent : Nat) :
    ∃ s, value? level indent (.unary op v) = some s ∧
      Utf8.bytesOf s = (foldedWritten (level.fold (.unary op v))
        (.sign op.toNat.toUInt8 [] (operandWritten (level.fold v) v own))).text := by
  rw [value?]
  cases hv : level.fold (.unary op v) with
  | some u =>
    obtain ⟨s, hs, htext⟩ := scalarText?_fold hfold hv
    rw [hv] at hs
    exact ⟨s, by rw [hs], htext⟩
  | none =>
    obtain ⟨s, hs, hstext⟩ := operandText?_written hfold (v := v) ht
    refine ⟨op.toString ++ s, by rw [hval, hs]; rfl, ?_⟩
    rw [Utf8.bytesOf_append, hstext, (sign_spec hop).2]
    rfl

/-- The text of an operator between two operands, from the texts of the operands as values. -/
theorem value?_binary {level : Level}
    (hfold : ∀ u v, level.fold u = some v → (scalarText? v).isSome = true) {op : String}
    {l r : Literal} {t t' : String} {left right : Written} (hop : IsBinary op)
    (hl : value? level 0 l = some t) (ht : Utf8.bytesOf t = left.text)
    (hr : value? level 0 r = some t') (ht' : Utf8.bytesOf t' = right.text) (indent : Nat) :
    ∃ s, value? level indent (.binary op l r) = some s ∧
      Utf8.bytesOf s = (foldedWritten (level.fold (.binary op l r))
        (.binary (operatorOf op).mark (operandWritten (level.fold l) l left)
          (operandWritten (level.fold r) r right))).text := by
  rw [value?]
  cases hv : level.fold (.binary op l r) with
  | some u =>
    obtain ⟨s, hs, htext⟩ := scalarText?_fold hfold hv
    rw [hv] at hs
    exact ⟨s, by rw [hs], htext⟩
  | none =>
    obtain ⟨a, ha, hatext⟩ := operandText?_written hfold (v := l) ht
    obtain ⟨b, hb, hbtext⟩ := operandText?_written hfold (v := r) ht'
    refine ⟨a ++ " " ++ op ++ " " ++ b, by rw [hl, ha, hr, hb]; rfl, ?_⟩
    have hbytes : (operatorOf op).bytes = Utf8.bytesOf op := by
      rw [BinaryOperator.bytes, (operatorOf_spec hop).2]
    have hblank : Utf8.bytesOf " " = [32] := rfl
    simp [Utf8.bytesOf_append, hatext, hbtext, foldedWritten, Written.text, BinaryOperator.mark, hbytes,
      hblank]

/-- An expression has a text, and the text is that of the written expression. -/
theorem value?_writtenWith (level : Level)
    (hfold : ∀ u v, level.fold u = some v → (scalarText? v).isSome = true)
    (href : ∀ c n, ok c n → ∀ indent, ∃ t, constantText? level indent c n = some t ∧
      Utf8.bytesOf t = (reference c n).text) :
    ∀ {v : Literal}, PlainWith ok v → ∀ indent, ∃ t, value? level indent v = some t ∧
      Utf8.bytesOf t = (writtenWith level.fold reference v).text
  | .null, _, _ => ⟨_, rfl, (scalarWritten_text (v := .null) rfl).symm⟩
  | .bool b, _, _ => ⟨_, rfl, (scalarWritten_text (v := .bool b) rfl).symm⟩
  | .int i, _, _ => ⟨_, rfl, (scalarWritten_text (v := .int i) rfl).symm⟩
  | .float f, _, _ => ⟨_, rfl, (scalarWritten_text (v := .float f) rfl).symm⟩
  | .str s, _, _ => ⟨_, rfl, (scalarWritten_text (v := .str s) rfl).symm⟩
  | .classConst c n, h, indent => href c n h indent
  | .lateStatic c n, h, indent => href c n h indent
  | .unary op v, h, indent => by
    obtain ⟨t, hval, htext⟩ := value?_writtenWith level hfold href h.2 0
    exact value?_unary hfold h.1 hval htext indent
  | .binary op l r, h, indent => by
    obtain ⟨t, hl, htext⟩ := value?_writtenWith level hfold href h.2.1 0
    obtain ⟨t', hr, htext'⟩ := value?_writtenWith level hfold href h.2.2 0
    exact value?_binary hfold h.1 hl htext hr htext' indent

end

theorem referenceText_written (c n : String) :
    Utf8.bytesOf (referenceText c n) = (referenceWritten c n).text := by
  unfold referenceText referenceWritten
  split
  · exact (stringWritten_text c).symm
  · rfl

theorem levelAt_fold (index : ClassIndex) (restart : Literal → Option String) (budget : Nat) :
    (levelAt index restart budget).fold = fold index budget := by
  cases budget <;> rfl

/-- At each level folding gives scalars. -/
theorem fold_levelAt_scalar {index : ClassIndex} {budget : Nat} (restart : Literal → Option String) :
    ∀ u v, (levelAt index restart budget).fold u = some v → (scalarText? v).isSome = true := by
  intro u v h
  rw [levelAt_fold] at h
  exact fold_scalar h

/-- At each level an expression has a text, that of the written expression. -/
theorem value?_written {index : ClassIndex} (restart : Literal → Option String) {budget : Nat}
    {v : Literal} (h : Plain index budget v) (indent : Nat) :
    ∃ t, value? (levelAt index restart budget) indent v = some t ∧
      Utf8.bytesOf t = (written index budget v).text := by
  induction budget generalizing v indent with
  | zero =>
    exact value?_writtenWith (levelAt index restart 0) (fun _ _ => fold_scalar)
      (fun c n _ _ => ⟨_, rfl, referenceText_written c n⟩) h indent
  | succ budget ih =>
    refine value?_writtenWith (levelAt index restart (budget + 1))
      (fun _ _ => fold_scalar) (fun c n hcn indent => ?_) h indent
    unfold constantText?
    simp only [levelAt]
    cases hdef : index.constant? c n with
    | some definition =>
      rw [hdef] at hcn
      exact ih hcn indent
    | none => exact ⟨_, rfl, referenceText_written c n⟩

/-- An expression is exported as the text of the written expression. -/
theorem text_written {index : ClassIndex} {v : Literal} (h : Plain index maxDepth v) :
    Utf8.bytesOf (text index v) = (written index maxDepth v).text := by
  obtain ⟨t, hval, htext⟩ := value?_written
    (textWithin? index (indexArrayCount index + arrayCount v)) h 0
  have hsome : text? index v = some t := hval
  rw [text, hsome]
  exact htext

/-! ### The tree and the parts of an expression -/

section
variable {fold : Literal → Option Literal} {ok : String → String → Prop}
  {reference : String → String → Written} {tree : String → String → OperatorTree}

theorem foldedWritten_tree (folded : Option Literal) {own : Written} {t : OperatorTree}
    (h : own.tree = t) : (foldedWritten folded own).tree = foldedTree folded t := by
  cases folded with
  | some u => rfl
  | none => exact h

theorem operandWritten_tree (folded : Option Literal) (v : Literal) {own : Written}
    {t : OperatorTree} (h : own.tree = t) :
    (operandWritten folded v own).tree = foldedTree folded t := by
  refine foldedWritten_tree folded ?_
  split
  · exact h
  · exact h

theorem writtenWith_tree (href : ∀ c n, ok c n → (reference c n).tree = tree c n) :
    ∀ {v : Literal}, PlainWith ok v → (writtenWith fold reference v).tree = treeWith fold tree v
  | .null, _ | .bool _, _ | .int _, _ | .float _, _ | .str _, _ => rfl
  | .classConst c n, h | .lateStatic c n, h => href c n h
  | .unary op v, h => by
    refine foldedWritten_tree _ ?_
    simp only [Written.tree, operandWritten_tree _ v (writtenWith_tree href h.2)]
  | .binary op l r, h => by
    refine foldedWritten_tree _ ?_
    simp only [Written.tree, operandWritten_tree _ l (writtenWith_tree href h.2.1),
      operandWritten_tree _ r (writtenWith_tree href h.2.2), BinaryOperator.mark_operator,
      BinaryOperator.bytes, (operatorOf_spec h.1).2]

theorem foldedWritten_proper (hfold : ∀ u v, fold u = some v → (scalarText? v).isSome = true)
    {v : Literal} {own : Written} (h : own.Proper) : (foldedWritten (fold v) own).Proper := by
  cases hv : fold v with
  | some u =>
    obtain ⟨t, ht⟩ := Option.isSome_iff_exists.1 (hfold v u hv)
    exact scalarWritten_proper ht
  | none => exact h

theorem operandWritten_proper (hfold : ∀ u v, fold u = some v → (scalarText? v).isSome = true)
    {v : Literal} {own : Written} (h : own.Proper) : (operandWritten (fold v) v own).Proper := by
  refine foldedWritten_proper hfold ?_
  split
  · exact ⟨.nil, h, .nil⟩
  · exact h

theorem writtenWith_proper (hfold : ∀ u v, fold u = some v → (scalarText? v).isSome = true)
    (href : ∀ c n, ok c n → (reference c n).Proper) :
    ∀ {v : Literal}, PlainWith ok v → (writtenWith fold reference v).Proper
  | .null, _ => scalarWritten_proper (v := .null) rfl
  | .bool b, _ => scalarWritten_proper (v := .bool b) rfl
  | .int i, _ => scalarWritten_proper (v := .int i) rfl
  | .float f, _ => scalarWritten_proper (v := .float f) rfl
  | .str s, _ => scalarWritten_proper (v := .str s) rfl
  | .classConst c n, h | .lateStatic c n, h => href c n h
  | .unary _ _, h => foldedWritten_proper hfold ⟨(sign_spec h.1).1, .nil,
      operandWritten_proper hfold (writtenWith_proper hfold href h.2)⟩
  | .binary _ _ _, h => foldedWritten_proper hfold ⟨fits_mark (operatorOf_spec h.1).1 _ _,
      operandWritten_proper hfold (writtenWith_proper hfold href h.2.1),
      operandWritten_proper hfold (writtenWith_proper hfold href h.2.2)⟩

end

theorem referenceWritten_tree (c n : String) :
    (referenceWritten c n).tree = referenceTree c n := by
  unfold referenceWritten referenceTree
  split
  · rfl
  · rfl

theorem referenceWritten_proper {c n : String} (h : Named c n) : (referenceWritten c n).Proper := by
  unfold referenceWritten
  split
  · exact stringWritten_proper c
  · rename_i hword
    obtain hword' | ⟨⟨s, names, hpath, hnames⟩, hn⟩ := h
    · exact absurd hword' hword
    · have hcolons : Utf8.bytesOf "::" = [58, 58] := rfl
      have hrest : ∀ t ∈ names, IsName t := fun t ht => hnames t (List.mem_cons_of_mem s ht)
      have hatom := isAtom_reference (hnames s List.mem_cons_self) hrest hn
      rw [← hpath] at hatom
      rw [Utf8.bytesOf_append, Utf8.bytesOf_append, hcolons]
      simpa [Written.Proper] using hatom

/-- The written expression has the tree of the expression. -/
theorem written_tree {index : ClassIndex} {budget : Nat} {v : Literal} (h : Plain index budget v) :
    (written index budget v).tree = tree index budget v := by
  induction budget generalizing v with
  | zero => exact writtenWith_tree (fun c n _ => referenceWritten_tree c n) h
  | succ budget ih =>
    refine writtenWith_tree (fun c n hcn => ?_) h
    cases hdef : index.constant? c n with
    | some definition =>
      rw [hdef] at hcn
      exact ih hcn
    | none => exact referenceWritten_tree c n

theorem written_proper {index : ClassIndex} {budget : Nat} {v : Literal}
    (h : Plain index budget v) : (written index budget v).Proper := by
  induction budget generalizing v with
  | zero => exact writtenWith_proper (fun _ _ => fold_scalar) (fun _ _ => referenceWritten_proper) h
  | succ budget ih =>
    refine writtenWith_proper (fun _ _ => fold_scalar) (fun c n hcn => ?_) h
    cases hdef : index.constant? c n with
    | some definition =>
      rw [hdef] at hcn
      exact ih hcn
    | none =>
      rw [hdef] at hcn
      exact referenceWritten_proper hcn

/-! ## Reading what is exported -/

/-- The text of an expression is read as the tree of the expression exactly if every operand stays
where it is written. -/
theorem readTree?_text_iff_grouped {index : ClassIndex} {v : Literal} (h : Plain index maxDepth v) :
    readTree? (Utf8.bytesOf (text index v)) = some (tree index maxDepth v) ↔
      (written index maxDepth v).Grouped := by
  rw [text_written h, ← written_tree h]
  exact Written.readTree?_text_iff (written_proper h)

/-- A class whose constant is a sum that does not fold. -/
def sumIndex : ClassIndex :=
  { decls := [{ name := "A", constants := [("S", .binary "+" (.classConst "B" "U") (.int 1))] }] }

/-- The double of an expression. -/
def doubled (v : Literal) : Literal := .binary "*" v (.int 2)

/-- The double of the sum itself keeps its tree, the double of the constant does not. -/
theorem readTree?_text_doubled_sum :
    (Plain sumIndex maxDepth (doubled (.binary "+" (.classConst "B" "U") (.int 1))) ∧
      text sumIndex (doubled (.binary "+" (.classConst "B" "U") (.int 1))) =
        "(\\B::U + 1) * 2" ∧
      readTree? (Utf8.bytesOf
          (text sumIndex (doubled (.binary "+" (.classConst "B" "U") (.int 1))))) =
        some (tree sumIndex maxDepth (doubled (.binary "+" (.classConst "B" "U") (.int 1))))) ∧
    Plain sumIndex maxDepth (doubled (.classConst "A" "S")) ∧
      text sumIndex (doubled (.classConst "A" "S")) = "\\B::U + 1 * 2" ∧
      readTree? (Utf8.bytesOf (text sumIndex (doubled (.classConst "A" "S")))) ≠
        some (tree sumIndex maxDepth (doubled (.classConst "A" "S"))) := by
  have hnamed : Named "B" "U" := .inr ⟨⟨[66], [], by decide, by decide⟩, by decide⟩
  have hunknown : sumIndex.constant? "B" "U" = none := rfl
  have hknown : sumIndex.constant? "A" "S" = some (.binary "+" (.classConst "B" "U") (.int 1)) :=
    rfl
  have hsum : ∀ budget, Plain sumIndex (budget + 1) (.binary "+" (.classConst "B" "U") (.int 1)) :=
    fun budget => ⟨by decide, by simpa only [PlainWith, hunknown] using hnamed, trivial⟩
  have hdirect : Plain sumIndex maxDepth (doubled (.binary "+" (.classConst "B" "U") (.int 1))) :=
    ⟨by decide, hsum 7, trivial⟩
  have hconst : Plain sumIndex maxDepth (doubled (.classConst "A" "S")) :=
    ⟨by decide, by simpa only [PlainWith, hknown] using hsum 6, trivial⟩
  refine ⟨⟨hdirect, by decide +kernel, ?_⟩, hconst, by decide +kernel, fun h => ?_⟩
  · exact (readTree?_text_iff_grouped hdirect).2 (by decide +kernel)
  · have hgrouped := (readTree?_text_iff_grouped hconst).1 h
    revert hgrouped
    decide +kernel

end FacadeStubs.Export
