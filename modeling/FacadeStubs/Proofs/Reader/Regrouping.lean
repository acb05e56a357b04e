import FacadeStubs.Proofs.Reader.Operations

/-!
# The shape in which an expression is read

An expression is a row of operands with operators between them, and a table gives the row its shape: the
operands and operators are taken one by one from the left, and each operator has as much on its left as
binds tightly enough. So the shape depends on the row alone, not on the expression that the row is taken
from.

`Written.row` is the row of an expression, `OperandRow.raise` gives a row its shape, and
`Written.regroup` is the shape of the row of an expression.

Results:
* `regroup_text`, `regroup_bound`: regrouping keeps the text and ends in a shape that the operators
  leave as it is.
* `row_regroup`: it keeps the row, so regrouping by one table does not change the shape by another one.
* `regroup_of_bound`, `regroup_eq_self`: what is bound already is not moved, and where the tree is kept
  nothing was.
-/
namespace FacadeStubs.Php

open Lexical Reader

theorem head?_append_of_ne_nil {s : Bytes} (h : s ≠ []) (t : Bytes) : (s ++ t).head? = s.head? := by
  obtain ⟨b, rest, rfl⟩ := List.exists_cons_of_ne_nil h
  rfl

theorem OperatorMark.fits_append_iff {m : OperatorMark} {left right : Bytes} (hright : right ≠ []) (w : Bytes) :
    m.Fits left (right ++ w) ↔ m.Fits left right := by
  have hhead : (m.after ++ (right ++ w)).head? = (m.after ++ right).head? := by
    rw [← List.append_assoc, head?_append_of_ne_nil (by simp [hright])]
  exact ⟨fun h => ⟨h.operator, h.spelled, h.before, h.after, h.left, hhead ▸ h.right⟩,
    fun h => ⟨h.operator, h.spelled, h.before, h.after, h.left, hhead ▸ h.right⟩⟩

namespace Written

/-- Every operator leaves its operands where they are written, signs that make one token aside. -/
def Bound (table : Table) : Written → Prop
  | atom _ => True
  | parenthesized _ p _ => p.Bound table
  | sign _ _ p => p.Bound table ∧ table.signs ≤ p.strength table
  | binary m l r => l.Bound table ∧ r.Bound table ∧ m.operator.leftLeast ≤ l.strength table ∧
    m.operator.rightLeast ≤ r.strength table

/-- No two signs make one token. -/
def Loose : Written → Prop
  | atom _ => True
  | parenthesized _ p _ => p.Loose
  | sign op g p => p.Loose ∧ glues op g p = false
  | binary _ l r => l.Loose ∧ r.Loose

theorem groupedBy_iff {table : Table} : ∀ {p : Written}, p.GroupedBy table ↔ p.Bound table ∧ p.Loose
  | atom _ => by simp [GroupedBy, Bound, Loose]
  | parenthesized _ p _ => by simp [GroupedBy, Bound, Loose, groupedBy_iff (p := p)]
  | sign op g p => by
    simp only [GroupedBy, Bound, Loose, groupedBy_iff (p := p)]
    grind
  | binary m l r => by
    simp only [GroupedBy, Bound, Loose, groupedBy_iff (p := l), groupedBy_iff (p := r)]
    grind

/-- Adds an operator and an operand on the right. -/
def snoc (table : Table) : Written → OperatorMark → Written → Written
  | binary p a b, m, u =>
    if m.operator.leftLeast ≤ p.operator.strength then binary m (binary p a b) u
    else binary p a (snoc table b m u)
  | sign op g p, m, u =>
    if m.operator.leftLeast ≤ table.signs then binary m (sign op g p) u
    else sign op g (snoc table p m u)
  | t, m, u => binary m t u

end Written

/-- An operand and what stands behind it: operators with an operand each. -/
@[ext]
structure OperandRow where
  first : Written
  rest : List (OperatorMark × Written)

namespace OperandRow

/-- Two rows with an operator between them. -/
def join (a : OperandRow) (m : OperatorMark) (b : OperandRow) : OperandRow :=
  ⟨a.first, a.rest ++ (m, b.first) :: b.rest⟩

/-- A row whose first operand stands behind a sign. -/
def signed (op : UInt8) (g : Bytes) (a : OperandRow) : OperandRow := ⟨.sign op g a.first, a.rest⟩

/-- The shape of a row. -/
def raise (table : Table) (a : OperandRow) : Written :=
  a.rest.foldl (fun p x => p.snoc table x.1 x.2) a.first

theorem join_assoc (a b c : OperandRow) (m m' : OperatorMark) :
    (a.join m b).join m' c = a.join m (b.join m' c) := by
  simp [join]

end OperandRow

namespace Written

variable {table : Table}

/-- The row of an expression. What is in parentheses is given its shape. -/
def row (table : Table) : Written → OperandRow
  | atom t => ⟨atom t, []⟩
  | parenthesized g p k => ⟨parenthesized g ((p.row table).raise table) k, []⟩
  | sign op g p => (p.row table).signed op g
  | binary m l r => (l.row table).join m (r.row table)

/-- The expression that the text of an expression is read as. -/
def regroup (table : Table) (p : Written) : Written := (p.row table).raise table

/-! ### The text is kept -/

theorem snoc_text (m : OperatorMark) (u : Written) : ∀ t : Written,
    (snoc table t m u).text = t.text ++ (m.before ++ (m.sign ++ (m.after ++ u.text)))
  | binary p a b => by
    rw [snoc]
    split
    · rfl
    · simp [text, snoc_text m u b]
  | sign op g p => by
    rw [snoc]
    split
    · rfl
    · simp [text, snoc_text m u p]
  | atom _ | parenthesized _ _ _ => rfl

end Written

/-- The bytes of a row. -/
def OperandRow.text (a : OperandRow) : Bytes :=
  a.first.text ++ a.rest.flatMap fun x => x.1.before ++ (x.1.sign ++ (x.1.after ++ x.2.text))

theorem OperandRow.raise_text (table : Table) (a : OperandRow) : (a.raise table).text = a.text := by
  obtain ⟨first, rest⟩ := a
  simp only [OperandRow.raise, OperandRow.text]
  induction rest generalizing first with
  | nil => simp
  | cons x rest ih => simp [ih, Written.snoc_text]

namespace Written

theorem row_text (table : Table) : ∀ p : Written, (p.row table).text = p.text
  | atom _ => by simp [row, OperandRow.text]
  | parenthesized g p k => by
    have hinner : ((p.row table).raise table).text = p.text :=
      (OperandRow.raise_text table _).trans (row_text table p)
    simp [row, OperandRow.text, text, hinner]
  | sign op g p => by
    rw [text, ← row_text table p]
    simp [row, OperandRow.signed, OperandRow.text, text]
  | binary m l r => by
    rw [text, ← row_text table l, ← row_text table r]
    simp [row, OperandRow.join, OperandRow.text]

theorem regroup_text (table : Table) (p : Written) : (p.regroup table).text = p.text := by
  rw [regroup, OperandRow.raise_text, row_text]

/-! ### The parts are kept -/

theorem snoc_last (m : OperatorMark) (u : Written) : ∀ t : Written, (snoc table t m u).last = u.last
  | binary p a b => by
    rw [snoc]
    split
    · rfl
    · exact snoc_last m u b
  | sign op g p => by
    rw [snoc]
    split
    · rfl
    · exact snoc_last m u p
  | atom _ | parenthesized _ _ _ => rfl

theorem snoc_proper {m : OperatorMark} {u : Written} (hu : u.Proper) : ∀ {t : Written}, t.Proper →
    m.Fits t.last u.text → (snoc table t m u).Proper
  | binary p a b, ht, hm => by
    rw [snoc]
    split
    · exact ⟨hm, ht, hu⟩
    · refine ⟨?_, ht.2.1, snoc_proper hu ht.2.2 hm⟩
      rw [snoc_text, OperatorMark.fits_append_iff ht.2.2.text_ne_nil]
      exact ht.1
  | sign op g p, ht, hm => by
    rw [snoc]
    split
    · exact ⟨hm, ht, hu⟩
    · exact ⟨ht.1, ht.2.1, snoc_proper hu ht.2.2 hm⟩
  | atom _, ht, hm => ⟨hm, ht, hu⟩
  | parenthesized _ _ _, ht, hm => ⟨hm, ht, hu⟩

end Written

namespace OperandRow

/-- Operators fit between the operands on their sides, the first one behind an operand that is given. -/
def Fitting : Bytes → List (OperatorMark × Written) → Prop
  | _, [] => True
  | last, (m, u) :: rest => m.Fits last u.text ∧ u.Proper ∧ Fitting u.last rest

/-- The last operand of a row. -/
def last (a : OperandRow) : Bytes := (a.rest.getLast?.map (·.2.last)).getD a.first.last

/-- The parts of a row are what they are written as. -/
def Proper (a : OperandRow) : Prop := a.first.Proper ∧ Fitting a.first.last a.rest

theorem raise_proper (table : Table) {a : OperandRow} (h : a.Proper) :
    (a.raise table).Proper ∧ (a.raise table).last = a.last := by
  obtain ⟨first, rest⟩ := a
  obtain ⟨hfirst, hrest⟩ := h
  simp only [raise, last] at *
  induction rest generalizing first with
  | nil => exact ⟨hfirst, rfl⟩
  | cons x rest ih =>
    obtain ⟨hm, hu, hrest⟩ := hrest
    have hlast : (first.snoc table x.1 x.2).last = x.2.last := Written.snoc_last x.1 x.2 first
    obtain ⟨hproper, heq⟩ := ih _ (Written.snoc_proper hu hfirst hm) (hlast ▸ hrest)
    refine ⟨hproper, heq.trans ?_⟩
    rw [hlast, List.getLast?_cons]
    cases rest.getLast? <;> rfl

theorem fitting_append {last : Bytes} {as bs : List (OperatorMark × Written)} :
    Fitting last (as ++ bs) ↔
      Fitting last as ∧ Fitting ((as.getLast?.map (·.2.last)).getD last) bs := by
  induction as generalizing last with
  | nil => simp [Fitting]
  | cons x as ih =>
    simp only [List.cons_append, Fitting, ih, and_assoc, List.getLast?_cons]
    cases as.getLast? <;> simp

theorem join_proper {a b : OperandRow} {m : OperatorMark} (ha : a.Proper) (hb : b.Proper)
    (hm : m.Fits a.last b.first.text) : (a.join m b).Proper ∧ (a.join m b).last = b.last := by
  refine ⟨⟨ha.1, fitting_append.2 ⟨ha.2, hm, hb.1, hb.2⟩⟩, ?_⟩
  simp only [last, join, List.getLast?_append, List.getLast?_cons]
  cases b.rest.getLast? <;> rfl

end OperandRow

namespace Written

variable {table : Table}

theorem row_proper : ∀ {p : Written}, p.Proper → (p.row table).Proper ∧ (p.row table).last = p.last
  | atom _, h => ⟨⟨h, trivial⟩, rfl⟩
  | parenthesized _ p _, h =>
    ⟨⟨⟨h.1, (OperandRow.raise_proper table (row_proper h.2.1).1).1, h.2.2⟩, trivial⟩, rfl⟩
  | sign _ _ p, h => by
    obtain ⟨hp, hlast⟩ : (p.row table).Proper ∧ _ := row_proper h.2.2
    exact ⟨⟨⟨h.1, h.2.1, hp.1⟩, hp.2⟩, hlast⟩
  | binary m l r, h => by
    obtain ⟨hl, hlast⟩ : (l.row table).Proper ∧ _ := row_proper h.2.1
    obtain ⟨hr, hlast'⟩ : (r.row table).Proper ∧ _ := row_proper h.2.2
    have hm : m.Fits (l.row table).last (r.row table).first.text := by
      have hfits := h.1
      rwa [← row_text table r, OperandRow.text, OperatorMark.fits_append_iff hr.1.text_ne_nil, ← hlast]
        at hfits
    exact hlast' ▸ OperandRow.join_proper hl hr hm

theorem regroup_proper (table : Table) {p : Written} (h : p.Proper) : (p.regroup table).Proper :=
  (OperandRow.raise_proper table (row_proper h).1).1

/-! ### Signs that make one token stay together -/

theorem glues_congr {p q : Written} {op : UInt8} {g : Bytes} (h : q.text.head? = p.text.head?) :
    glues op g q = glues op g p := by
  rw [glues, glues, h]

theorem snoc_loose (m : OperatorMark) (u : Written) : ∀ {t : Written}, t.Proper →
    ((snoc table t m u).Loose ↔ t.Loose ∧ u.Loose)
  | binary p a b, ht => by
    rw [snoc]
    split
    · rfl
    · simp only [Loose, snoc_loose m u ht.2.2, and_assoc]
  | sign op g p, ht => by
    rw [snoc]
    split
    · rfl
    · have hglues : glues op g (snoc table p m u) = glues op g p :=
        glues_congr (by rw [snoc_text, head?_append_of_ne_nil ht.2.2.text_ne_nil])
      simp only [Loose, snoc_loose m u ht.2.2, hglues]
      grind
  | atom _, _ => .rfl
  | parenthesized _ _ _, _ => .rfl

end Written

/-- No two signs in a row make one token. -/
def OperandRow.Loose (a : OperandRow) : Prop := a.first.Loose ∧ ∀ x ∈ a.rest, x.2.Loose

theorem OperandRow.raise_loose (table : Table) {a : OperandRow} (h : a.Proper) :
    (a.raise table).Loose ↔ a.Loose := by
  obtain ⟨first, rest⟩ := a
  obtain ⟨hfirst, hrest⟩ := h
  simp only [raise, OperandRow.Loose] at *
  induction rest generalizing first with
  | nil => simp
  | cons x rest ih =>
    obtain ⟨hm, hu, hrest⟩ := hrest
    have hlast : (first.snoc table x.1 x.2).last = x.2.last := Written.snoc_last x.1 x.2 first
    rw [List.foldl_cons, ih _ (Written.snoc_proper hu hfirst hm) (hlast ▸ hrest),
      Written.snoc_loose x.1 x.2 hfirst, List.forall_mem_cons, and_assoc]

namespace Written

variable {table : Table}

theorem row_loose : ∀ {p : Written}, p.Proper → ((p.row table).Loose ↔ p.Loose)
  | atom _, _ => by simp [row, OperandRow.Loose, Loose]
  | parenthesized _ p _, h => by
    have hinner : ((p.row table).raise table).Loose ↔ p.Loose :=
      (OperandRow.raise_loose table (row_proper h.2.1).1).trans (row_loose h.2.1)
    simp [row, OperandRow.Loose, Loose, hinner]
  | sign op g p, h => by
    have hglues : glues op g (p.row table).first = glues op g p := by
      refine (glues_congr ?_).symm
      rw [← row_text table p, OperandRow.text,
        head?_append_of_ne_nil (row_proper h.2.2).1.1.text_ne_nil]
    have hinner : (p.row table).Loose ↔ p.Loose := row_loose h.2.2
    simp only [row, OperandRow.signed, OperandRow.Loose, Loose, hglues, ← hinner]
    grind
  | binary m l r, h => by
    have hl : (l.row table).Loose ↔ l.Loose := row_loose h.2.1
    have hr : (r.row table).Loose ↔ r.Loose := row_loose h.2.2
    simp only [row, OperandRow.join, OperandRow.Loose, Loose, List.forall_mem_append,
      List.forall_mem_cons, ← hl, ← hr, and_assoc]

theorem regroup_loose (table : Table) {p : Written} (h : p.Proper) :
    (p.regroup table).Loose ↔ p.Loose :=
  (OperandRow.raise_loose table (row_proper h).1).trans (row_loose h)

end Written

/-! ### The shape is one that the operators leave as it is -/

/-- An operator that cannot take what another one joins on its left binds tightly enough to stand on
the right of the other. -/
theorem rightLeast_le_strength {o p : BinaryOperator} (ho : o ∈ operators) (hp : p ∈ operators)
    (h : ¬ o.leftLeast ≤ p.strength) : p.rightLeast ≤ o.strength := by
  have hall : ∀ o ∈ operators, ∀ p ∈ operators, ¬ o.leftLeast ≤ p.strength →
      p.rightLeast ≤ o.strength := by decide
  exact hall o ho p hp h

theorem not_leftLeast_le {p q : BinaryOperator} (hp : p ∈ operators) (hq : q ∈ operators)
    (h : p.rightLeast ≤ q.strength) : ¬ q.leftLeast ≤ p.strength := by
  have hall : ∀ p ∈ operators, ∀ q ∈ operators, p.rightLeast ≤ q.strength →
      ¬ q.leftLeast ≤ p.strength := by decide
  exact hall p hp q hq h

theorem leftLeast_le {o : BinaryOperator} (ho : o ∈ operators) : o.leftLeast ≤ 19 := by
  have hall : ∀ o ∈ operators, o.leftLeast ≤ 19 := by decide
  exact hall o ho

theorem strength_le_leftLeast (o : BinaryOperator) : o.strength ≤ o.leftLeast := by
  unfold BinaryOperator.leftLeast
  split <;> omega

theorem strength_le_rightLeast (o : BinaryOperator) : o.strength ≤ o.rightLeast := by
  unfold BinaryOperator.rightLeast
  split <;> omega

/-- Behind any operator a sign is read with its operand. -/
theorem rightLeast_le_signs (table : Table) {o : BinaryOperator} (ho : o ∈ operators) :
    o.rightLeast ≤ table.signs := by
  have hall : ∀ o ∈ operators, o.rightLeast ≤ 18 := by decide
  have hsigns : 18 ≤ table.signs := by cases table <;> decide
  exact Nat.le_trans (hall o ho) hsigns

/-- An operator that reaches into the operand of a sign binds as tightly as the sign demands. -/
theorem signs_le_strength (table : Table) {o : BinaryOperator} (ho : o ∈ operators) :
    ¬ o.leftLeast ≤ table.signs ↔ table.signs ≤ o.strength := by
  have hall : ∀ o ∈ operators, (¬ o.leftLeast ≤ 19 ↔ 19 ≤ o.strength) ∧
      (¬ o.leftLeast ≤ 18 ↔ 18 ≤ o.strength) := by decide
  cases table
  · exact (hall o ho).1
  · exact (hall o ho).2

namespace Written

variable {table : Table}

/-- Whether an expression is an operand behind signs. -/
def isSimple : Written → Bool
  | binary _ _ _ => false
  | sign _ _ p => p.isSimple
  | _ => true

theorem signs_le_simple {u : Written} (h : u.isSimple = true) : table.signs ≤ u.strength table := by
  cases u with
  | binary _ _ _ => cases h
  | sign _ _ _ => exact Nat.le_refl _
  | atom _ | parenthesized _ _ _ =>
    have hsigns : table.signs ≤ 19 := by cases table <;> decide
    exact hsigns

theorem snoc_strength (m : OperatorMark) (u t : Written) :
    (snoc table t m u).strength table = m.operator.strength ∨
      (snoc table t m u).strength table = t.strength table := by
  cases t with
  | binary p a b =>
    rw [snoc]
    split
    · exact .inl rfl
    · exact .inr rfl
  | sign op g p =>
    rw [snoc]
    split
    · exact .inl rfl
    · exact .inr rfl
  | _ => exact .inl rfl

theorem snoc_bound {m : OperatorMark} {u : Written} (hm : m.operator ∈ operators) (hu : u.Bound table)
    (hsimple : u.isSimple = true) : ∀ {t : Written}, t.Proper → t.Bound table →
      (snoc table t m u).Bound table
  | binary p a b, hp, hb => by
    have hright := Nat.le_trans (rightLeast_le_signs table hm) (signs_le_simple hsimple)
    rw [snoc]
    split
    · rename_i h
      exact ⟨hb, hu, h, hright⟩
    · rename_i h
      refine ⟨hb.1, snoc_bound hm hu hsimple hp.2.2 hb.2.1, hb.2.2.1, ?_⟩
      rcases snoc_strength m u b with hs | hs
      · rw [hs]
        exact rightLeast_le_strength hm hp.1.operator h
      · rw [hs]
        exact hb.2.2.2
  | sign op g p, hp, hb => by
    have hright := Nat.le_trans (rightLeast_le_signs table hm) (signs_le_simple hsimple)
    rw [snoc]
    split
    · rename_i h
      exact ⟨hb, hu, h, hright⟩
    · rename_i h
      refine ⟨snoc_bound hm hu hsimple hp.2.2 hb.1, ?_⟩
      rcases snoc_strength m u p with hs | hs
      · rw [hs]
        exact (signs_le_strength table hm).1 h
      · rw [hs]
        exact hb.2
  | atom _, _, hb => ⟨hb, hu, leftLeast_le hm,
      Nat.le_trans (rightLeast_le_signs table hm) (signs_le_simple hsimple)⟩
  | parenthesized _ _ _, _, hb => ⟨hb, hu, leftLeast_le hm,
      Nat.le_trans (rightLeast_le_signs table hm) (signs_le_simple hsimple)⟩

end Written

/-- The operands of a row are bound, and none of them is an operation but behind signs. -/
def OperandRow.Bound (table : Table) (a : OperandRow) : Prop :=
  (a.first.Bound table ∧ a.first.isSimple = true) ∧
    ∀ x ∈ a.rest, x.2.Bound table ∧ x.2.isSimple = true

theorem OperandRow.raise_bound {table : Table} {a : OperandRow} (h : a.Proper) (hb : a.Bound table) :
    (a.raise table).Bound table := by
  obtain ⟨first, rest⟩ := a
  obtain ⟨hfirst, hrest⟩ := h
  obtain ⟨⟨hfirstBound, -⟩, hrestBound⟩ := hb
  simp only [raise] at *
  induction rest generalizing first with
  | nil => exact hfirstBound
  | cons x rest ih =>
    obtain ⟨hm, hu, hrest⟩ := hrest
    obtain ⟨⟨hbound, hsimple⟩, hrestBound⟩ := List.forall_mem_cons.1 hrestBound
    have hlast : (first.snoc table x.1 x.2).last = x.2.last := Written.snoc_last x.1 x.2 first
    exact ih _ (Written.snoc_proper hu hfirst hm) (hlast ▸ hrest) hrestBound
      (Written.snoc_bound hm.operator hbound hsimple hfirst hfirstBound)

namespace Written

variable {table : Table}

theorem row_bound : ∀ {p : Written}, p.Proper → (p.row table).Bound table
  | atom _, _ => ⟨⟨trivial, rfl⟩, by simp [row]⟩
  | parenthesized _ p _, h =>
    ⟨⟨OperandRow.raise_bound (row_proper h.2.1).1 (row_bound h.2.1), rfl⟩, by simp [row]⟩
  | sign _ _ p, h => by
    obtain ⟨⟨hfirst, hsimple⟩, hrest⟩ : (p.row table).Bound table := row_bound h.2.2
    exact ⟨⟨⟨hfirst, signs_le_simple hsimple⟩, hsimple⟩, hrest⟩
  | binary m l r, h => by
    obtain ⟨hfirst, hrest⟩ : (l.row table).Bound table := row_bound h.2.1
    obtain ⟨hfirst', hrest'⟩ : (r.row table).Bound table := row_bound h.2.2
    exact ⟨hfirst, List.forall_mem_append.2 ⟨hrest, List.forall_mem_cons.2 ⟨hfirst', hrest'⟩⟩⟩

theorem regroup_bound (table : Table) {p : Written} (h : p.Proper) : (p.regroup table).Bound table :=
  OperandRow.raise_bound (row_proper h).1 (row_bound h)

/-! ### What is bound is not moved -/

theorem snoc_eq_binary {t u : Written} {m : OperatorMark} (h : m.operator.leftLeast ≤ t.strength table) :
    snoc table t m u = binary m t u := by
  cases t with
  | binary p a b => exact if_pos h
  | sign op g p => exact if_pos h
  | _ => rfl

/-- All operators outside parentheses bind at least as tightly as the whole. -/
theorem strength_le_of_mem_row : ∀ {p : Written}, p.Bound table → ∀ x ∈ (p.row table).rest,
    p.strength table ≤ x.1.operator.strength
  | atom _, _, x, hx => by cases hx
  | parenthesized _ _ _, _, x, hx => by cases hx
  | sign _ _ p, hb, x, hx => Nat.le_trans hb.2 (strength_le_of_mem_row hb.1 x hx)
  | binary m l r, hb, x, hx => by
    rcases List.mem_append.1 hx with hx | hx
    · exact Nat.le_trans (strength_le_leftLeast _)
        (Nat.le_trans hb.2.2.1 (strength_le_of_mem_row hb.1 x hx))
    · rcases List.mem_cons.1 hx with rfl | hx
      · exact Nat.le_refl _
      · exact Nat.le_trans (strength_le_rightLeast _)
          (Nat.le_trans hb.2.2.2 (strength_le_of_mem_row hb.2.1 x hx))

end Written

section
variable {table : Table}

/-- The operators of a proper row are those of the language. -/
theorem OperandRow.Fitting.operator {last : Bytes} {rest : List (OperatorMark × Written)} (h : Fitting last rest) :
    ∀ x ∈ rest, x.1.operator ∈ operators := by
  induction rest generalizing last with
  | nil => simp
  | cons x rest ih => exact List.forall_mem_cons.2 ⟨h.1.operator, ih h.2.2⟩

/-- A sign stays in front of a row whose operators all reach into its operand. -/
theorem OperandRow.raise_signed {op : UInt8} {g : Bytes} {a : OperandRow}
    (h : ∀ x ∈ a.rest, ¬ x.1.operator.leftLeast ≤ table.signs) :
    (a.signed op g).raise table = .sign op g (a.raise table) := by
  obtain ⟨first, rest⟩ := a
  simp only [signed, raise] at *
  induction rest generalizing first with
  | nil => rfl
  | cons x rest ih =>
    obtain ⟨hx, hrest⟩ := List.forall_mem_cons.1 h
    rw [List.foldl_cons, List.foldl_cons, Written.snoc, if_neg hx, ih _ hrest]

/-- An operator stays in front of a row whose operators all bind more tightly. -/
theorem OperandRow.foldl_binary {m : OperatorMark} {l first : Written} {rest : List (OperatorMark × Written)}
    (h : ∀ x ∈ rest, ¬ x.1.operator.leftLeast ≤ m.operator.strength) :
    rest.foldl (fun p x => Written.snoc table p x.1 x.2) (.binary m l first) =
      Written.binary m l (OperandRow.raise table ⟨first, rest⟩) := by
  simp only [raise]
  induction rest generalizing first with
  | nil => rfl
  | cons x rest ih =>
    obtain ⟨hx, hrest⟩ := List.forall_mem_cons.1 h
    rw [List.foldl_cons, List.foldl_cons, Written.snoc, if_neg hx, ih hrest]

end

namespace Written

variable {table : Table}

/-- What is bound already is not moved. -/
theorem regroup_of_bound : ∀ {p : Written}, p.Proper → p.Bound table → p.regroup table = p
  | atom _, _, _ => rfl
  | parenthesized g p k, hp, hb =>
    congrArg (parenthesized g · k) (regroup_of_bound (p := p) hp.2.1 hb)
  | sign op g p, hp, hb => by
    have hinto : ∀ x ∈ (p.row table).rest, ¬ x.1.operator.leftLeast ≤ table.signs := by
      intro x hx
      rw [signs_le_strength table ((row_proper hp.2.2).1.2.operator x hx)]
      exact Nat.le_trans hb.2 (strength_le_of_mem_row hb.1 x hx)
    calc (sign op g p).regroup table = sign op g (p.regroup table) := OperandRow.raise_signed hinto
      _ = sign op g p := by rw [regroup_of_bound hp.2.2 hb.1]
  | binary m l r, hp, hb => by
    have hinto : ∀ x ∈ (r.row table).rest, ¬ x.1.operator.leftLeast ≤ m.operator.strength := by
      intro x hx
      refine not_leftLeast_le hp.1.operator ((row_proper hp.2.2).1.2.operator x hx) ?_
      exact Nat.le_trans hb.2.2.2 (strength_le_of_mem_row hb.2.1 x hx)
    calc (binary m l r).regroup table
        = (r.row table).rest.foldl (fun p x => p.snoc table x.1 x.2)
            (snoc table (l.regroup table) m (r.row table).first) := by
          simp [regroup, row, OperandRow.join, OperandRow.raise]
      _ = (r.row table).rest.foldl (fun p x => p.snoc table x.1 x.2)
            (binary m l (r.row table).first) := by
          rw [regroup_of_bound hp.2.1 hb.1, snoc_eq_binary hb.2.2.1]
      _ = binary m l (r.regroup table) := OperandRow.foldl_binary hinto
      _ = binary m l r := by rw [regroup_of_bound hp.2.2 hb.2.1]

/-! ### The row is kept -/

theorem row_snoc (table' : Table) (m : OperatorMark) (u : Written) : ∀ t : Written,
    (snoc table' t m u).row table = (t.row table).join m (u.row table)
  | binary p a b => by
    rw [snoc]
    split
    · rfl
    · simp only [row, row_snoc table' m u b, OperandRow.join_assoc]
  | sign op g p => by
    rw [snoc]
    split
    · rfl
    · simp only [row, row_snoc table' m u p]
      rfl
  | atom _ | parenthesized _ _ _ => rfl

end Written

namespace OperandRow

variable {table table' : Table}

/-- The row of the shape of a row: each operand gives its own row. -/
def again (table : Table) (a : OperandRow) : OperandRow :=
  a.rest.foldl (fun b x => b.join x.1 (x.2.row table)) (a.first.row table)

theorem row_raise (a : OperandRow) : (a.raise table').row table = a.again table := by
  obtain ⟨first, rest⟩ := a
  simp only [raise, again]
  suffices h : ∀ (p : Written) (b : OperandRow), p.row table = b →
      (rest.foldl (fun p x => p.snoc table' x.1 x.2) p).row table =
        rest.foldl (fun b x => b.join x.1 (x.2.row table)) b from h _ _ rfl
  induction rest with
  | nil => exact fun p b h => h
  | cons x rest ih =>
    intro p b h
    exact ih _ _ (by rw [Written.row_snoc, h])

theorem foldl_signed (op : UInt8) (g : Bytes) (rest : List (OperatorMark × Written)) (b : OperandRow) :
    rest.foldl (fun b x => b.join x.1 (x.2.row table)) (b.signed op g) =
      (rest.foldl (fun b x => b.join x.1 (x.2.row table)) b).signed op g := by
  induction rest generalizing b with
  | nil => rfl
  | cons x rest ih => exact ih (b.join x.1 (x.2.row table))

theorem foldl_join (a : OperandRow) (m : OperatorMark) (rest : List (OperatorMark × Written)) (b : OperandRow) :
    rest.foldl (fun b x => b.join x.1 (x.2.row table)) (a.join m b) =
      a.join m (rest.foldl (fun b x => b.join x.1 (x.2.row table)) b) := by
  induction rest generalizing b with
  | nil => rfl
  | cons x rest ih => rw [List.foldl_cons, List.foldl_cons, join_assoc, ih]

theorem again_join (a b : OperandRow) (m : OperatorMark) :
    (a.join m b).again table = (a.again table).join m (b.again table) := by
  simp only [again, join, List.foldl_append, List.foldl_cons]
  exact foldl_join _ m b.rest (b.first.row table)

end OperandRow

namespace Written

variable {table : Table}

theorem again_row (table' : Table) : ∀ p : Written, (p.row table').again table = p.row table
  | atom _ => rfl
  | parenthesized g p k => by
    have hinner : ((p.row table').raise table').row table = p.row table :=
      (OperandRow.row_raise _).trans (again_row table' p)
    simp only [row, OperandRow.again, List.foldl_nil, hinner]
  | sign op g p =>
    (OperandRow.foldl_signed op g _ _).trans (congrArg (OperandRow.signed op g) (again_row table' p))
  | binary m l r => by rw [row, OperandRow.again_join, again_row table' l, again_row table' r, row]

/-- Regrouping keeps the row of an expression, by whatever table. -/
theorem row_regroup (table' : Table) (p : Written) : (p.regroup table').row table = p.row table :=
  (OperandRow.row_raise _).trans (again_row table' p)

/-- So regrouping by one table does not change the shape by another one. -/
theorem regroup_regroup (table' : Table) (p : Written) :
    (p.regroup table').regroup table = p.regroup table := by
  rw [regroup, row_regroup, regroup]

end Written

/-! ### OperandRow and tree are the expression -/

/-- The number of atoms of a tree. -/
def OperatorTree.leaves : OperatorTree → Nat
  | atom _ => 1
  | sign _ t => t.leaves
  | binary _ l r => l.leaves + r.leaves

theorem OperatorTree.leaves_pos : ∀ t : OperatorTree, 0 < t.leaves
  | atom _ => Nat.one_pos
  | sign _ t => t.leaves_pos
  | binary _ l r => Nat.add_pos_left l.leaves_pos r.leaves

theorem Written.snoc_leaves {table : Table} (m : OperatorMark) (u : Written) : ∀ t : Written,
    (snoc table t m u).tree.leaves = t.tree.leaves + u.tree.leaves
  | binary p a b => by
    rw [snoc]
    split
    · rfl
    · simp only [tree, OperatorTree.leaves, snoc_leaves m u b]
      omega
  | sign op g p => by
    rw [snoc]
    split
    · rfl
    · exact snoc_leaves m u p
  | atom _ | parenthesized _ _ _ => rfl

/-- The number of atoms of operands behind operators. -/
def OperandRow.leaves : List (OperatorMark × Written) → Nat
  | [] => 0
  | x :: rest => x.2.tree.leaves + OperandRow.leaves rest

theorem OperandRow.leaves_append (as bs : List (OperatorMark × Written)) :
    OperandRow.leaves (as ++ bs) = OperandRow.leaves as + OperandRow.leaves bs := by
  induction as with
  | nil => exact (Nat.zero_add _).symm
  | cons a as ih => simp only [List.cons_append, leaves, ih, Nat.add_assoc]

theorem OperandRow.raise_leaves (table : Table) (a : OperandRow) :
    (a.raise table).tree.leaves = a.first.tree.leaves + OperandRow.leaves a.rest := by
  obtain ⟨first, rest⟩ := a
  simp only [raise]
  induction rest generalizing first with
  | nil => rfl
  | cons x rest ih =>
    rw [List.foldl_cons, ih, Written.snoc_leaves]
    simp only [leaves]
    omega

namespace Written

variable {table : Table}

theorem row_leaves (table : Table) : ∀ p : Written,
    (p.row table).first.tree.leaves + OperandRow.leaves (p.row table).rest = p.tree.leaves
  | atom _ => rfl
  | parenthesized g p k => by
    have hinner := row_leaves table p
    rw [← OperandRow.raise_leaves table] at hinner
    exact hinner
  | sign op g p => row_leaves table p
  | binary m l r => by
    have hl := row_leaves table l
    have hr := row_leaves table r
    simp only [row, OperandRow.join, OperandRow.leaves_append, OperandRow.leaves, tree, OperatorTree.leaves]
    omega

end Written

/-- As many atoms in front of an operator are the same operands. -/
theorem OperandRow.eq_of_leaves {as as' bs bs' : List (OperatorMark × Written)} {x x' : OperatorMark × Written}
    (h : as ++ x :: bs = as' ++ x' :: bs') (hleaves : OperandRow.leaves as = OperandRow.leaves as') :
    as = as' ∧ x = x' ∧ bs = bs' := by
  have hnil : ∀ cs : List (OperatorMark × Written), OperandRow.leaves cs = 0 → cs = [] := by
    intro cs hcs
    cases cs with
    | nil => rfl
    | cons y cs =>
      have hpos := y.2.tree.leaves_pos
      simp only [leaves] at hcs
      omega
  rcases List.append_eq_append_iff.1 h with ⟨cs, rfl, hcs⟩ | ⟨cs, rfl, hcs⟩
  · obtain rfl := hnil cs (by rw [leaves_append] at hleaves; omega)
    obtain ⟨rfl, rfl⟩ := List.cons.inj hcs
    exact ⟨(List.append_nil _).symm, rfl, rfl⟩
  · obtain rfl := hnil cs (by rw [leaves_append] at hleaves; omega)
    obtain ⟨rfl, rfl⟩ := List.cons.inj hcs
    exact ⟨List.append_nil _, rfl, rfl⟩

namespace Written

variable {table : Table}

theorem row_rest_binary {m : OperatorMark} {l r : Written} : ((binary m l r).row table).rest ≠ [] := by
  simp [row, OperandRow.join]

/-- An expression is known from its row and its tree. -/
theorem eq_of_row {p q : Written} (hrow : p.row table = q.row table) (htree : p.tree = q.tree) :
    p = q := by
  induction p generalizing q with
  | atom t =>
    cases q with
    | atom t' => cases htree; rfl
    | binary m l r => exact absurd (congrArg OperandRow.rest hrow).symm row_rest_binary
    | _ => cases congrArg OperandRow.first hrow
  | parenthesized g x k ih =>
    cases q with
    | parenthesized g' y k' =>
      obtain ⟨rfl, hraise, rfl⟩ := parenthesized.inj (congrArg OperandRow.first hrow)
      have hinner : x.row table = y.row table := by
        rw [← row_regroup table x, ← row_regroup table y]
        exact congrArg (row table) hraise
      rw [ih hinner htree]
    | binary m l r => exact absurd (congrArg OperandRow.rest hrow).symm row_rest_binary
    | _ => cases congrArg OperandRow.first hrow
  | sign op g x ih =>
    cases q with
    | sign op' g' y =>
      have hsigned : (x.row table).signed op g = (y.row table).signed op' g' := hrow
      obtain ⟨hsign, hrest⟩ := OperandRow.mk.inj hsigned
      obtain ⟨rfl, rfl, hfirst⟩ := sign.inj hsign
      have hinner : x.row table = y.row table := OperandRow.ext hfirst hrest
      rw [ih hinner (OperatorTree.sign.inj htree).2]
    | binary m l r => cases htree
    | _ => cases congrArg OperandRow.first hrow
  | binary m l r ihl ihr =>
    cases q with
    | binary m' l' r' =>
      obtain ⟨-, hltree, hrtree⟩ := OperatorTree.binary.inj htree
      have hjoin : (l.row table).join m (r.row table) = (l'.row table).join m' (r'.row table) := hrow
      obtain ⟨hfirst, hrest⟩ := OperandRow.mk.inj hjoin
      have hleaves := row_leaves table l
      have hleaves' := row_leaves table l'
      rw [hfirst, hltree] at hleaves
      obtain ⟨hlrest, hx, hrrest⟩ := OperandRow.eq_of_leaves hrest (by omega)
      obtain ⟨rfl, hrfirst⟩ := Prod.mk.inj hx
      rw [ihl (OperandRow.ext hfirst hlrest) hltree, ihr (OperandRow.ext hrfirst hrrest) hrtree]
    | sign op g y => cases htree
    | _ => exact absurd (congrArg OperandRow.rest hrow) row_rest_binary

/-- If regrouping keeps the tree, there was nothing to regroup. -/
theorem regroup_eq_self {p : Written} (h : (p.regroup table).tree = p.tree) : p.regroup table = p := by
  have hrow : (p.regroup table).row table = p.row table := row_regroup table p
  exact eq_of_row hrow h

/-- The shape in which an expression is read has the tree of the expression exactly if the expression is
bound. -/
theorem regroup_tree_iff {p : Written} (hp : p.Proper) :
    (p.regroup table).tree = p.tree ↔ p.Bound table := by
  refine ⟨fun h => ?_, fun h => by rw [regroup_of_bound hp h]⟩
  rw [← regroup_eq_self h]
  exact regroup_bound table hp

end Written

end FacadeStubs.Php
