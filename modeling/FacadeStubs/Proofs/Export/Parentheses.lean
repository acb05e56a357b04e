import FacadeStubs.Proofs.Export.Forms
import FacadeStubs.Proofs.Export.Rereading
import FacadeStubs.Proofs.Export.SourceExpressions

/-!
# Parentheses of the source

An expression of the source is taken for a constant without its parentheses. Operations on values
become operators, which are put in parentheses again where they are operands; operations on source
text alone stay source text, and are put nowhere in parentheses.

`tree` is the tree of operators of an expression, with what folds replaced by its value and indexed
constants replaced by their definitions; `exported` is the expression with the parentheses that its
exported text has. The source may have any gaps between its tokens. They are kept with source text,
and what becomes an operator is written with a blank on either side.

Both tables of operators are meant: the grammar reads a sign before `**`, and PHP itself after it. What
is grouped by the table of the grammar is what the source is read as; by that of PHP a sign in front of
`**` is lost to its operand already where the source is read.

Results:
* `writes_exported`: an expression is written as `exported`, and `exported_tree`: it has the tree of the
  source.
* `readTreeBy?_text_constantOf_iff`: the exported text is read as the tree of the source exactly if
  every operand stays where it is written.
-/
namespace FacadeStubs.Export

open Php

namespace SourceExpr

/-! ## Trees and written forms -/

/-- The tree of a value of the source. Source text is one atom. -/
def leafTree (index : ClassIndex) (budget : Nat) : Literal → OperatorTree
  | .expr s => .atom (Utf8.bytesOf s)
  | v => Export.tree index budget v

/-- A value of the source as it is written. -/
def leafWritten (index : ClassIndex) (budget : Nat) : Literal → Written
  | .expr s => .atom (Utf8.bytesOf s)
  | v => Export.written index budget v

/-- The tree of operators of an expression, with what folds replaced by its value. -/
def tree (index : ClassIndex) (budget : Nat) : SourceExpr → OperatorTree
  | leaf _ _ v _ => leafTree index budget v
  | parenthesized _ x _ => x.tree index budget
  | sign op g s x => foldedTree (fold index budget (sign op g s x).constant)
      (.sign op.toNat.toUInt8 (foldedTree (fold index budget x.constant) (x.tree index budget)))
  | binary m s l r => foldedTree (fold index budget (binary m s l r).constant)
      (.binary m.operator.bytes (foldedTree (fold index budget l.constant) (l.tree index budget))
        (foldedTree (fold index budget r.constant) (r.tree index budget)))

/-- An expression as it is exported: operations on source text alone as the source writes them, all
others as operators on their operands. -/
def exported (index : ClassIndex) (budget : Nat) : SourceExpr → Written
  | leaf _ _ v _ => leafWritten index budget v
  | parenthesized _ x _ => x.exported index budget
  | sign op g s x =>
    if x.constant.isExpr then (sign op g s x).kept
    else foldedWritten (fold index budget (sign op g s x).constant) (.sign op.toNat.toUInt8 []
      (operandWritten (fold index budget x.constant) x.constant (x.exported index budget)))
  | binary m s l r =>
    if l.constant.isExpr && r.constant.isExpr then (binary m s l r).kept
    else foldedWritten (fold index budget (binary m s l r).constant)
      (.binary (operatorOf m.operator.text).mark
        (operandWritten (fold index budget l.constant) l.constant (l.exported index budget))
        (operandWritten (fold index budget r.constant) r.constant (r.exported index budget)))

/-- The operands of an expression are source text that is one operand with absolute class names, or values
of scalars, references and operators. -/
def Leaves (index : ClassIndex) (budget : Nat) : SourceExpr → Prop
  | leaf t s v _ => (v = .expr s ∧ KeptOperand t s) ∨ Plain index budget v
  | parenthesized _ x _ => x.Leaves index budget
  | sign _ _ _ x => x.Leaves index budget
  | binary _ _ l r => l.Leaves index budget ∧ r.Leaves index budget

/-- Expressions of such operands with signs and operators. Operations on source text alone are kept as the
text that the source has with absolute class names. -/
def Exportable (index : ClassIndex) (budget : Nat) : SourceExpr → Prop
  | leaf t s v _ => (v = .expr s ∧ KeptOperand t s) ∨ Plain index budget v
  | parenthesized _ x _ => x.Exportable index budget
  | sign op g s x => IsUnary op ∧ x.Exportable index budget ∧
      (x.constant.isExpr = true → Utf8.bytesOf s = (sign op g s x).kept.text)
  | binary m s l r => m.operator ∈ operators ∧ l.Exportable index budget ∧ r.Exportable index budget ∧
      ((l.constant.isExpr && r.constant.isExpr) = true → Utf8.bytesOf s = (binary m s l r).kept.text)

/-! ## Which operations are kept as source text -/

theorem constant_ne_least : ∀ e : SourceExpr, e.constant ≠ .int Int64.minValue
  | leaf _ _ _ h => h
  | parenthesized _ x _ => x.constant_ne_least
  | sign _ _ _ x => fun h => signedConstant?_ne_least x.constant_ne_least (eq_some_of_getD_expr h)
  | binary _ _ _ _ => by
    intro h
    rw [constant] at h
    split at h <;> cases h

theorem isExpr_sign {op : Char} (g : Bytes) (s : String) (x : SourceExpr) (hop : IsUnary op) :
    (sign op g s x).constant.isExpr = x.constant.isExpr := by
  rw [constant]
  rcases signedConstant?_cases hop x.constant_ne_least with
    ⟨hx, hnone⟩ | ⟨hx, ⟨k, hk⟩ | ⟨f, hf⟩ | hu⟩
  · rw [hnone, hx]
    rfl
  · rw [hk, hx]
    rfl
  · rw [hf, hx]
    rfl
  · rw [hu, hx]
    rfl

theorem isExpr_binary (m : OperatorMark) (s : String) (l r : SourceExpr) :
    (binary m s l r).constant.isExpr = (l.constant.isExpr && r.constant.isExpr) := by
  rw [constant]
  split
  · rename_i h
    exact h.symm
  · rename_i h
    exact (Bool.not_eq_true _ ▸ h).symm

theorem fold_isExpr {index : ClassIndex} {budget : Nat} {v : Literal} (h : v.isExpr = true) :
    fold index budget v = none := by
  cases v with
  | expr s => cases budget <;> rfl
  | _ => cases h

section
variable {index : ClassIndex} {budget : Nat}

/-- Where all is source text, all operands are kept. -/
theorem isKept_of_isExpr : ∀ {e : SourceExpr}, e.Exportable index budget → e.constant.isExpr = true →
    e.IsKept
  | leaf _ _ v _, h, he => by
    obtain h | h := h
    · exact h
    · cases v with
      | expr s => cases budget <;> exact h.elim
      | _ => cases he
  | parenthesized _ x _, h, he => isKept_of_isExpr (e := x) h he
  | sign _ g s x, h, he => isKept_of_isExpr (e := x) h.2.1 (by rwa [isExpr_sign g s x h.1] at he)
  | binary _ _ l r, h, he => by
    obtain ⟨hl, hr⟩ : l.constant.isExpr = true ∧ r.constant.isExpr = true := by
      rwa [isExpr_binary, Bool.and_eq_true] at he
    exact ⟨isKept_of_isExpr h.2.1 hl, isKept_of_isExpr h.2.2.1 hr⟩

/-! ## The tree -/

theorem leafWritten_tree {t : Bytes} {s : String} {v : Literal}
    (h : (v = .expr s ∧ KeptOperand t s) ∨ Plain index budget v) :
    (leafWritten index budget v).tree = leafTree index budget v := by
  obtain ⟨rfl, -⟩ | h := h
  · rfl
  · cases v with
    | expr s => rfl
    | _ => exact written_tree h

/-- Where all is source text, the source has the tree. -/
theorem kept_tree : ∀ {e : SourceExpr}, e.Exportable index budget → e.constant.isExpr = true →
    e.kept.tree = e.tree index budget
  | leaf t s v _, h, he => by
    obtain ⟨rfl, -⟩ := isKept_of_isExpr (e := leaf t s v _) h he
    rfl
  | parenthesized _ x _, h, he => kept_tree (e := x) h he
  | sign op g s x, h, he => by
    have hx : x.constant.isExpr = true := by rwa [isExpr_sign g s x h.1] at he
    rw [kept, tree, fold_isExpr he, fold_isExpr hx]
    simp only [foldedTree, Written.tree, kept_tree h.2.1 hx]
  | binary m s l r, h, he => by
    obtain ⟨hl, hr⟩ : l.constant.isExpr = true ∧ r.constant.isExpr = true := by
      rwa [isExpr_binary, Bool.and_eq_true] at he
    rw [kept, tree, fold_isExpr he, fold_isExpr hl, fold_isExpr hr]
    simp only [foldedTree, Written.tree, kept_tree h.2.1 hl, kept_tree h.2.2.1 hr]

/-- What is exported has the tree of the source. -/
theorem exported_tree : ∀ {e : SourceExpr}, e.Exportable index budget →
    (e.exported index budget).tree = e.tree index budget
  | leaf _ _ _ _, h => leafWritten_tree h
  | parenthesized _ x _, h => exported_tree (e := x) h
  | sign op g s x, h => by
    rw [exported]
    split
    · rename_i hx
      exact kept_tree h (by rw [isExpr_sign g s x h.1, hx])
    · refine foldedWritten_tree _ ?_
      simp only [Written.tree, operandWritten_tree _ x.constant (exported_tree h.2.1)]
  | binary m s l r, h => by
    rw [exported]
    split
    · rename_i hlr
      exact kept_tree h (by rw [isExpr_binary, hlr])
    · refine foldedWritten_tree _ ?_
      simp only [Written.tree, operandWritten_tree _ l.constant (exported_tree h.2.1),
        operandWritten_tree _ r.constant (exported_tree h.2.2.1), BinaryOperator.mark_operator,
        BinaryOperator.bytes, (operatorOf_spec ⟨_, h.1, rfl⟩).2]

/-! ## The text -/

theorem writes_leaf {t : Bytes} {s : String} {v : Literal}
    (h : (v = .expr s ∧ KeptOperand t s) ∨ Plain index budget v) :
    Writes index budget v (leafWritten index budget v) := by
  obtain ⟨rfl, hs⟩ | h := h
  · exact .source (w := .atom _) hs.atom rfl
  · have hwrites := h.writes
    cases v with
    | expr s => cases budget <;> exact h.elim
    | _ => exact hwrites

/-- What an expression is taken for is written as the exported expression. -/
theorem writes_exported : ∀ {e : SourceExpr}, e.written.Formed → e.Exportable index budget →
    Writes index budget e.constant (e.exported index budget)
  | leaf _ _ _ _, _, h => writes_leaf h
  | parenthesized _ x _, hp, h => writes_exported (e := x) hp.2.1 h
  | sign op g s x, hp, h => by
    obtain ⟨hop, hx, hkept⟩ := id h
    rw [exported, constant]
    -- with source text the sign is kept as written, with a number it is part of the value
    rcases signedConstant?_cases hop x.constant_ne_least with
      ⟨hexpr, hnone⟩ | ⟨hexpr, ⟨k, hk⟩ | ⟨f, hf⟩ | hu⟩
    · have he : (sign op g s x).constant.isExpr = true := by rw [isExpr_sign g s x hop, hexpr]
      rw [hnone, if_pos hexpr]
      exact .source (kept_proper hp (isKept_of_isExpr h he)) (hkept hexpr).symm
    · have hfold : fold index budget (.int k) = some (.int k) := by cases budget <;> rfl
      rw [hk, hexpr, if_neg Bool.false_ne_true, Option.getD_some, hfold]
      exact .scalar rfl
    · have hfold : fold index budget (.float f) = some (.float f) := by cases budget <;> rfl
      rw [hf, hexpr, if_neg Bool.false_ne_true, Option.getD_some, hfold]
      exact .scalar rfl
    · rw [hu, hexpr, if_neg Bool.false_ne_true, Option.getD_some]
      exact .unary hop (writes_exported hp.2.2 hx)
  | binary m s l r, hp, h => by
    obtain ⟨hop, hl, hr, hkept⟩ := id h
    rw [exported, constant]
    split
    · rename_i hexpr
      have he : (binary m s l r).constant.isExpr = true := by rw [isExpr_binary, hexpr]
      exact .source (kept_proper hp (isKept_of_isExpr h he)) (hkept hexpr).symm
    · exact .binary ⟨_, hop, rfl⟩ (writes_exported hp.2.1 hl) (writes_exported hp.2.2 hr)

/-! ## The nodes of the source -/

/-- An expression of the source is exportable if its operands are. -/
theorem exportable_ofNode {source : Bytes} {scope : ClassScope} {n : Node} {p : Written}
    (h : n.WrittenAs source p) (hp : p.Formed) (ht : p.IsText) (ho : n.IsOrderly)
    (hl : (ofNode source scope n).Leaves index budget) :
    (ofNode source scope n).Exportable index budget := by
  induction h with
  | atom atomic _ =>
    rw [ofNode_atomic atomic] at hl ⊢
    exact hl
  | parenthesized inner _ _ ih =>
    exact ih hp.2.1 ht.2.1 ((Node.isOrderly_iff.1 ho).isOrderly List.mem_cons_self) hl
  | @sign start stop x op g p operand behind covers ih =>
    have hx : x.IsOrderly := (Node.isOrderly_iff.1 ho).isOrderly List.mem_cons_self
    have hexportable := ih hp.2.2 ht.2 hx hl
    have hbytes := @bytesOf_absoluteSource source scope _ _ (Node.WrittenAs.sign operand behind covers) hp ht ho
    rw [ofNode] at hbytes ⊢
    refine ⟨?_, hexportable, fun hexpr => hbytes ?_⟩
    · rw [covers.headD]
      rcases isSign_iff.1 hp.1 with rfl | rfl | rfl | rfl <;> decide
    · exact isKept_of_isExpr (e := ofNode source scope x) hexportable hexpr
  | @binary start stop i j x y m l r left right first between behind covers ihl ihr =>
    have horder := Node.isOrderly_iff.1 ho
    have hy : y.IsOrderly := horder.isOrderly
      (List.mem_cons_of_mem _ (List.mem_cons_of_mem _ List.mem_cons_self))
    have hleft := ihl hp.2.1 ht.2.2.1 (horder.isOrderly List.mem_cons_self) hl.1
    have hright := ihr hp.2.2 ht.2.2.2 hy hl.2
    have hbytes := @bytesOf_absoluteSource source scope _ _
      (Node.WrittenAs.binary left right first between behind covers) hp ht ho
    rw [ofNode] at hbytes ⊢
    refine ⟨?_, hleft, hright, fun hexpr => hbytes ?_⟩
    · simp only [between.bytes, hp.1.spelled, operatorWith_bytes hp.1.operator]
      exact hp.1.operator
    · obtain ⟨hexprl, hexprr⟩ := (Bool.and_eq_true _ _).mp hexpr
      exact ⟨isKept_of_isExpr hleft hexprl, isKept_of_isExpr hright hexprr⟩

end

end SourceExpr

/-! ## Reading what is exported -/

/-- An expression of the source, with any gaps between its tokens, is read as its tree exactly if every
operand stays where it is written, and its exported text exactly if every operand stays where it is
exported. The text is the same wherever the expression stands. -/
theorem readTreeBy?_text_constantOf_iff (table : Table) {index : ClassIndex} {source : Bytes}
    {scope : ClassScope} {n : Node} {p : Written} (hn : n.Spells source p) (hp : p.Proper) (ht : p.IsText)
    (ho : n.IsOrderly) (hl : (SourceExpr.ofNode source scope n).Leaves index maxDepth) :
    (readTreeBy? table p.text = some p.tree ↔ p.GroupedBy table) ∧
    (readTreeBy? table (Utf8.bytesOf (text index (constantOf source scope n))) =
        some ((SourceExpr.ofNode source scope n).tree index maxDepth) ↔
      ((SourceExpr.ofNode source scope n).exported index maxDepth).GroupedBy table) ∧
    ∀ restart indent, value? (levelAt index restart maxDepth) indent (constantOf source scope n) =
      some (text index (constantOf source scope n)) := by
  have hexportable := SourceExpr.exportable_ofNode hn.writtenAs hp.formed ht ho hl
  have hwritten : (SourceExpr.ofNode source scope n).written = p := by
    rw [SourceExpr.written_ofNode, hn.writtenAs.ofNode hp.formed]
  have hwrites := SourceExpr.writes_exported (hwritten ▸ hp.formed) hexportable
  rw [← SourceExpr.constant_ofNode hn.writtenAs hp.formed ht]
  generalize SourceExpr.ofNode source scope n = e at hexportable hwrites ⊢
  obtain ⟨htext, heverywhere⟩ := hwrites.text
  refine ⟨Written.readTreeBy?_text_iff hp, ?_, heverywhere⟩
  rw [htext, ← SourceExpr.exported_tree hexportable]
  exact Written.readTreeBy?_text_iff hwrites.proper

/-- Two flags in parentheses, and a constant of the class. -/
def flagSource : Bytes := Utf8.bytesOf "( FOO /* on */ |QUX )|self::ALL"

def flagNode : Node :=
  .mk .binaryOperation 0 31 [
    .mk .parenthesized 0 21 [.mk .binaryOperation 2 19 [
      .mk .name 2 5 [], .mk .operator 15 16 [], .mk .name 16 19 []]],
    .mk .operator 21 22 [],
    .mk .classConstant 22 31 [.mk .relativeScope 22 26 [], .mk .name 28 31 []]]

def flagWritten : Written :=
  let or : BinaryOperator := ⟨"|", 9, false⟩
  .binary ⟨or, [], [124], []⟩
    (.parenthesized [32] (.binary ⟨or, Utf8.bytesOf " /* on */ ", [124], []⟩
      (.atom (Utf8.bytesOf "FOO")) (.atom (Utf8.bytesOf "QUX"))) [32])
    (.atom (Utf8.bytesOf "self::ALL"))

/-- The expression of the flags, with the constants that its operands are taken for. -/
def flagExpr : SourceExpr :=
  let or : BinaryOperator := ⟨"|", 9, false⟩
  .binary ⟨or, [], [124], []⟩ "( FOO /* on */ |QUX )|\\App\\Svc::ALL"
    (.parenthesized [32] (.binary ⟨or, Utf8.bytesOf " /* on */ ", [124], []⟩ "FOO /* on */ |QUX"
      (.leaf (Utf8.bytesOf "FOO") "FOO" (.expr "FOO") nofun)
      (.leaf (Utf8.bytesOf "QUX") "QUX" (.expr "QUX") nofun)) [32])
    (.leaf (Utf8.bytesOf "self::ALL") "\\App\\Svc::ALL" (.classConst "App\\Svc" "ALL") nofun)

theorem flagWritten_proper : flagWritten.Proper := by
  have hcomment : IsGap (Utf8.bytesOf " /* on */ ") :=
    .space rfl (.comment (t := [32, 111, 110, 32]) (isCommented_of_ne_slash (by decide +kernel)) (.space rfl .nil))
  have hall : IsAtom (Utf8.bytesOf "self::ALL") :=
    isAtom_relative (t := Utf8.bytesOf "self") (n := Utf8.bytesOf "ALL") (by decide) (by decide)
  have hor : ⟨"|", 9, false⟩ ∈ operators := by simp [operators, signOperators]
  refine ⟨⟨hor, rfl, .nil, .nil, by decide +kernel, by decide +kernel⟩, ⟨isGap_spaces rfl, ⟨?_, ?_, ?_⟩,
    isGap_spaces rfl⟩, hall⟩
  · exact ⟨hor, rfl, hcomment, .nil, by decide +kernel, by decide +kernel⟩
  · exact isAtom_constantName (by decide +kernel)
  · exact isAtom_constantName (by decide +kernel)

theorem flagWritten_isText : flagWritten.IsText :=
  ⟨⟨[], rfl⟩, ⟨[], rfl⟩, ⟨⟨[' '], rfl⟩, ⟨⟨_, rfl⟩, ⟨[], rfl⟩, ⟨_, rfl⟩, _, rfl⟩, [' '], rfl⟩, _, rfl⟩

theorem flagExpr_leaves : flagExpr.Leaves sumIndex maxDepth := by
  have hnamed : Named "App\\Svc" "ALL" :=
    .inr ⟨⟨Utf8.bytesOf "App", [Utf8.bytesOf "Svc"], by decide, by decide⟩, by decide⟩
  have hfoo : KeptOperand (Utf8.bytesOf "FOO") "FOO" :=
    keptOperand_self ⟨⟨'F', rfl, rfl⟩, 'O', rfl, rfl⟩ (isAtom_constantName (by decide +kernel))
  have hqux : KeptOperand (Utf8.bytesOf "QUX") "QUX" :=
    keptOperand_self ⟨⟨'Q', rfl, rfl⟩, 'X', rfl, rfl⟩ (isAtom_constantName (by decide +kernel))
  exact ⟨⟨.inl ⟨rfl, hfoo⟩, .inl ⟨rfl, hqux⟩⟩, .inr hnamed⟩

/-- The flags are kept as they are written, in front of an operator that leaves them together. -/
theorem readTreeBy?_text_constantOf_flags :
    expressionOf? flagSource = some flagNode ∧
      text sumIndex (constantOf flagSource serviceScope flagNode) =
        "FOO /* on */ |QUX | \\App\\Svc::ALL" ∧
      ∀ table, readTreeBy? table (Utf8.bytesOf (text sumIndex (constantOf flagSource serviceScope flagNode))) =
        some ((SourceExpr.ofNode flagSource serviceScope flagNode).tree sumIndex maxDepth) := by
  have hread : expressionOf? flagSource = some flagNode := by decide +kernel
  obtain ⟨node, hnode, hshows⟩ := Written.exists_expressionOf? flagWritten_proper (by decide +kernel)
  have hspells : flagNode.Spells flagSource flagWritten := by
    obtain rfl : flagNode = node := Option.some.inj (hread.symm.trans hnode)
    exact hshows.spells
  have hleaves : (SourceExpr.ofNode flagSource serviceScope flagNode).Leaves sumIndex maxDepth :=
    flagExpr_leaves
  refine ⟨hread, by decide +kernel, fun table => ?_⟩
  refine (readTreeBy?_text_constantOf_iff table hspells flagWritten_proper flagWritten_isText
    (isOrderly_of_expressionOf? hread) hleaves).2.1.2 ?_
  cases table <;> decide +kernel

/-- The double of two flags. -/
def doubledFlagsSource : Bytes := Utf8.bytesOf "(FOO | BAR) * 2"

def doubledFlagsNode : Node :=
  .mk .binaryOperation 0 15 [
    .mk .parenthesized 0 11 [.mk .binaryOperation 1 10 [
      .mk .name 1 4 [], .mk .operator 5 6 [], .mk .name 7 10 []]],
    .mk .operator 12 13 [], .mk .integerLiteral 14 15 []]

/-- The flags are source text alone and lose their parentheses: only the second one is doubled, whichever
table the text is read by. -/
theorem flags_regrouped :
    let foo := OperatorTree.atom (Utf8.bytesOf "FOO")
    let bar := OperatorTree.atom (Utf8.bytesOf "BAR")
    let two := OperatorTree.atom (Utf8.bytesOf "2")
    expressionOf? doubledFlagsSource = some doubledFlagsNode ∧
      (SourceExpr.ofNode doubledFlagsSource serviceScope doubledFlagsNode).tree sumIndex maxDepth =
        .binary (Utf8.bytesOf "*") (.binary (Utf8.bytesOf "|") foo bar) two ∧
      text sumIndex (constantOf doubledFlagsSource serviceScope doubledFlagsNode) = "FOO | BAR * 2" ∧
      ∀ table, readTreeBy? table (Utf8.bytesOf
        (text sumIndex (constantOf doubledFlagsSource serviceScope doubledFlagsNode))) =
          some (.binary (Utf8.bytesOf "|") foo (.binary (Utf8.bytesOf "*") bar two)) := by
  refine ⟨by decide +kernel, by decide +kernel, by decide +kernel, fun table => ?_⟩
  cases table <;> decide +kernel

end FacadeStubs.Export
