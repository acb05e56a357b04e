import FacadeStubs.Proofs.Reader.Regrouping

/-!
# Trees that texts are read as

The text of an expression is read in the shape that its row has by the table of the grammar, unless two
signs of it make one token; then it cannot be read. PHP itself gives the row a shape by its own table:
`readTreeBy?` reads a text with the grammar and shapes what was read by a table.

Results:
* `Written.fails`: two signs that make one token cannot be read.
* `Written.readTreeBy?_text_iff`: by either table a text is read as the tree that it was written from exactly
  if it is grouped by the table.
* `Written.readTree?_text_iff`: the same of the grammar's own reading.
-/
namespace FacadeStubs.Php

open Lexical Reader

namespace Written

/-! ## Signs that make one token -/

/-- Where an operand is expected, the expression cannot be read. -/
def FailsAsOperand (p : Written) : Prop :=
  ∀ ⦃long : Bool⦄ ⦃n : Nat⦄ ⦃source : Bytes⦄ ⦃c : Cursor⦄ ⦃u : Bytes⦄, p.text.length ≤ n → c.In source →
    c.tagEnds = false → c.rest = p.text ++ u → Ends p.last u →
    (operandWith (Grammar.upTo long n)).run c = none

/-- Where an expression is expected, the expression cannot be read. -/
def FailsInFront (p : Written) : Prop :=
  ∀ ⦃long : Bool⦄ ⦃n : Nat⦄ ⦃source : Bytes⦄ ⦃c : Cursor⦄ ⦃u : Bytes⦄ ⦃least : Nat⦄, p.text.length ≤ n →
    c.In source → c.tagEnds = false → c.rest = p.text ++ u → least ≤ p.strength .grammar →
    Ends p.last u → BindsLess p.closing u → (expressionWith (Grammar.upTo long n) least).run c = none

theorem FailsAsOperand.failsInFront {p : Written} (h : p.FailsAsOperand) : p.FailsInFront := by
  intro long n source c u least hn hin ht hr _ hends _
  exact run_bind_none (h hn hin ht hr hends)

theorem failsAsOperand_parenthesized {g k : Bytes} {p : Written} (hg : IsGap g) (hp : p.Proper)
    (hk : IsGap k) (h : p.FailsInFront) : (parenthesized g p k).FailsAsOperand := by
  intro long n source c u hn hin ht hr _
  have hlen : (parenthesized g p k).text.length = 1 + g.length + p.text.length + (k.length + 1) := by
    simp only [text, List.length_cons, List.length_append, List.length_nil]
    omega
  obtain ⟨m, rfl⟩ : ∃ m, n = m + 1 := ⟨n - 1, by omega⟩
  have hr' : c.rest = 40 :: (g ++ (p.text ++ (k ++ 41 :: u))) := by simp [hr, text]
  have h1 : (c.past (1 + g.length)).rest = p.text ++ (k ++ 41 :: u) := by
    rw [← Cursor.past_past]
    exact Cursor.past_rest_append (by simp [hr'])
  have hclose : Closes Strength.any (k ++ 41 :: u) := closes_gap hk rfl
  have hcast : atCast c.rest = false := by
    rw [hr']
    exact atCast_eq_false hg hp hclose.follows.boundary
  have hinner : ((Grammar.upTo long (m + 1)).expression Strength.any).run (c.past (1 + g.length)) = none :=
    h (by omega) (hin.past _) ht h1 (Nat.zero_le _) (hclose.follows.ends _)
      (hclose.loose.mono (Nat.zero_le _))
  refine run_bind_none ?_
  rw [primary_parenthesis hr' hcast]
  exact run_bind_none (run_parenthesized_none hg hr' ht (begins hp _) hinner)

theorem failsAsOperand_sign {op : UInt8} {g : Bytes} {p : Written} (hop : isSign op = true)
    (hg : IsGap g) (hp : p.Proper) (hunit : p.isUnit = true) (hglue : glues op g p = false)
    (h : p.FailsAsOperand) : (sign op g p).FailsAsOperand := by
  intro long n source c u hn hin ht hr hu
  have hlen : (sign op g p).text.length = 1 + g.length + p.text.length := by
    simp only [text, List.length_cons, List.length_append]
    omega
  obtain ⟨m, rfl⟩ : ∃ m, n = m + 1 := ⟨n - 1, by omega⟩
  have hr' : c.rest = op :: (g ++ (p.text ++ u)) := by simp [hr, text]
  have h1 : (c.past (1 + g.length)).rest = p.text ++ u := by
    rw [← Cursor.past_past]
    exact Cursor.past_rest_append (by simp [hr'])
  have hskip : ((Grammar.upTo long (m + 1)).operand).run (c.past 1) = none := by
    have hbehind : ((c.past 1).past g.length).rest = p.text ++ u := by rw [Cursor.past_past, h1]
    refine (run_operandWith_gap (Grammar.upTo long m) (k := g.length) ?_ ?_).trans ?_
    · rw [Cursor.past_rest, hr']
      exact hg.gapsBeforeAttributes (begins hp u)
    · rw [hbehind]
      exact begins hp u
    · exact h (by omega) ((hin.past 1).past g.length) ht hbehind hu
  exact run_bind_none (primary_sign_none hr' hop (fun h' => head?_ne_sign h' hg hp hunit hglue u)
    (run_bind_none hskip))

/-- A step wants a place, and no expression that is written here is one. -/
theorem failsAsOperand_step {op : UInt8} {g : Bytes} {p : Written} (hop : op = 43 ∨ op = 45)
    (hg : IsGap g) (hp : p.Proper) (h : p.ReadsAsOperand ∨ p.FailsAsOperand) :
    (sign op [] (sign op g p)).FailsAsOperand := by
  intro long n source c u hn hin ht hr hu
  have hlen : (sign op [] (sign op g p)).text.length = 2 + g.length + p.text.length := by
    simp only [text, List.length_cons, List.length_append, List.nil_append]
    omega
  obtain ⟨m, rfl⟩ : ∃ m, n = m + 1 := ⟨n - 1, by omega⟩
  have hr' : c.rest = op :: op :: (g ++ (p.text ++ u)) := by simp [hr, text]
  have hbehind : ((c.past 2).past g.length).rest = p.text ++ u :=
    Cursor.past_rest_append (by simp [hr'])
  have hskip : ((Grammar.upTo long (m + 1)).operand).run (c.past 2) =
      (operandWith (Grammar.upTo long m)).run ((c.past 2).past g.length) := by
    refine run_operandWith_gap (Grammar.upTo long m) ?_ (by rw [hbehind]; exact begins hp u)
    rw [Cursor.past_rest, hr']
    exact hg.gapsBeforeAttributes (begins hp u)
  refine run_bind_none (primary_step_none hr' hop ?_)
  unfold Grammar.place
  rcases h with h | h
  · obtain ⟨o, hrun, hext, -⟩ := h (n := m) (by omega) ((hin.past 2).past g.length) ht hbehind hu
    rw [run_bind_some (hskip.trans hrun)]
    exact run_bind_none (run_require_false (by rcases hext with h | h <;> simp [h]))
  · exact run_bind_none (hskip.trans (h (by omega) ((hin.past 2).past g.length) ht hbehind hu))

section
variable {m : OperatorMark} {l r : Written}

theorem failsInFront_left (hp : (binary m l r).Proper)
    (hleft : m.operator.leftLeast ≤ l.strength .grammar) (h : l.FailsInFront) :
    (binary m l r).FailsInFront := by
  intro long n source c u least hn hin ht hr hleast _ _
  obtain ⟨hfits, hl, hrp⟩ := hp
  have hne := hrp.text_ne_nil
  have hsplit : c.rest = l.text ++ (m.before ++ (m.sign ++ (m.after ++ (r.text ++ u)))) := by
    simp [hr, text]
  have hlen : l.text.length ≤ (binary m l r).text.length := by simp [text]
  exact h (by omega) hin ht hsplit
    (Nat.le_trans hleast (Nat.le_trans (strength_le_leftLeast m.operator) hleft)) (hfits.ends hne u)
    (hfits.bindsLess hne (strength_lt_closing hfits.operator hl hleft) u)

theorem failsInFront_right (hp : (binary m l r).Proper)
    (hleft : m.operator.leftLeast ≤ l.strength .grammar)
    (hright : m.operator.rightLeast ≤ r.strength .grammar) (hlr : l.ReadsInFront)
    (h : r.FailsInFront) : (binary m l r).FailsInFront := by
  intro long n source c u least hn hin ht hrest hleast hends hloose
  have hlen : (binary m l r).text.length =
      l.text.length + ((m.before.length + m.sign.length) + (m.after.length + r.text.length)) := by
    simp only [text, List.length_append]
    omega
  have hsplit : c.rest = l.text ++ (m.before ++ (m.sign ++ (m.after ++ (r.text ++ u)))) := by
    simp [hrest, text]
  have hsign : 0 < m.sign.length := List.length_pos_iff.2 hp.1.sign_ne_nil
  obtain ⟨n, rfl⟩ : ∃ k, n = k + 1 := ⟨n - 1, by omega⟩
  obtain ⟨left, fuel, -, -, hrun⟩ := hlr.operator hp hleft (n := n + 1) (by omega) hin ht hsplit
    hleast
  have hbehind : (c.past l.text.length).rest = m.before ++ (m.sign ++ (m.after ++ (r.text ++ u))) :=
    Cursor.past_rest_append hsplit
  have hgap : ((c.past l.text.length).past (m.before.length + m.sign.length)).rest =
      m.after ++ (r.text ++ u) := by
    rw [← List.length_append]
    exact Cursor.past_rest_append (by rw [hbehind, List.append_assoc])
  have hin' := (hin.past l.text.length).past (m.before.length + m.sign.length)
  have htd : ((c.past l.text.length).past (m.before.length + m.sign.length)).tagEnds = false := ht
  rw [hrun]
  generalize (c.past l.text.length).past (m.before.length + m.sign.length) = d at *
  have hd : (d.past m.after.length).rest = r.text ++ u := Cursor.past_rest_append hgap
  have hskip : ((Grammar.upTo long (n + 1)).expression m.operator.rightLeast).run d = none :=
    (run_expressionWith_gap (Grammar.upTo long n) m.operator.rightLeast
      (by rw [hgap]; exact hp.1.after.gapsBeforeAttributes (begins hp.2.2 u))
      (by rw [hd]; exact begins hp.2.2 u)).trans
      (h (by omega) (hin'.past m.after.length) htd hd hright hends
        (hloose.mono (Nat.le_trans hright r.strength_le_closing)))
  exact run_bind_none hskip

end

/-- A sign that makes one token with what stands behind it stands in front of that sign. -/
theorem exists_sign_of_glues {op : UInt8} {g : Bytes} {p : Written} (hp : p.Proper)
    (hunit : p.isUnit = true) (h : glues op g p = true) :
    (op = 43 ∨ op = 45) ∧ g = [] ∧ ∃ k q, p = sign op k q := by
  simp only [glues, Bool.and_eq_true, Bool.or_eq_true, beq_iff_eq, List.isEmpty_iff] at h
  obtain ⟨⟨hop, rfl⟩, hhead⟩ := h
  refine ⟨hop, rfl, ?_⟩
  cases p with
  | atom t =>
    obtain ⟨b, rest, rfl, hb⟩ := hp.head
    obtain rfl : b = op := by simpa [text] using hhead
    rcases hop with rfl | rfl <;> cases hb
  | parenthesized _ _ _ =>
    obtain rfl : 40 = op := by simpa [text] using hhead
    rcases hop with h | h <;> cases h
  | sign op' k q =>
    obtain rfl : op' = op := by simpa [text] using hhead
    exact ⟨k, q, rfl⟩
  | binary _ _ _ => cases hunit

/-- Two signs that make one token cannot be read. -/
theorem fails : ∀ {p : Written}, p.Proper → p.Bound .grammar → ¬ p.Loose →
    (p.isUnit = true → p.FailsAsOperand) ∧ p.FailsInFront
  | atom _, _, _, h => absurd trivial h
  | parenthesized _ p _, hp, hb, hl =>
    have h := failsAsOperand_parenthesized hp.1 hp.2.1 hp.2.2 (fails (p := p) hp.2.1 hb hl).2
    ⟨fun _ => h, h.failsInFront⟩
  | sign op g p, hp, hb, hl => by
    have hunit := isUnit_of_le hp.2.2 hb.2
    have h : (sign op g p).FailsAsOperand := by
      cases hglue : glues op g p with
      | false =>
        have hl' : ¬ p.Loose := fun h => hl ⟨h, hglue⟩
        exact failsAsOperand_sign hp.1 hp.2.1 hp.2.2 hunit hglue ((fails hp.2.2 hb.1 hl').1 hunit)
      | true =>
        obtain ⟨hop, rfl, k, q, rfl⟩ := exists_sign_of_glues hp.2.2 hunit hglue
        have hqunit := isUnit_of_le hp.2.2.2.2 hb.1.2
        refine failsAsOperand_step hop hp.2.2.2.1 hp.2.2.2.2 ?_
        by_cases hq : q.Loose
        · exact .inl ((reads hp.2.2.2.2 (groupedBy_iff.2 ⟨hb.1.1, hq⟩)).1 hqunit)
        · exact .inr ((fails hp.2.2.2.2 hb.1.1 hq).1 hqunit)
    exact ⟨fun _ => h, h.failsInFront⟩
  | binary m l r, hp, hb, hloose => by
    refine ⟨fun h => (by cases h), ?_⟩
    by_cases hl : l.Loose
    · have hr : ¬ r.Loose := fun h => hloose ⟨hl, h⟩
      exact failsInFront_right hp hb.2.2.1 hb.2.2.2 (reads hp.2.1 (groupedBy_iff.2 ⟨hb.1, hl⟩)).2
        (fails hp.2.2 hb.2.1 hr).2
    · exact failsInFront_left hp hb.2.2.1 (fails hp.2.1 hb.1 hl).2

theorem expressionOf?_eq_none {p : Written} (hp : p.Proper) (hl : ¬ p.Loose) :
    expressionOf? p.text = none := by
  have hq := regroup_proper .grammar hp
  have hnone : ((Grammar.upTo true ((p.regroup .grammar).text.length + 1)).expression Strength.any).run
      { rest := (p.regroup .grammar).text, offset := 0, size := (p.regroup .grammar).text.length } =
        none :=
    (fails hq (regroup_bound .grammar hp) (fun h => hl ((regroup_loose .grammar hp).1 h))).2
      (Nat.le_refl _) (u := []) ⟨rfl, rfl⟩ rfl (by simp) (Nat.zero_le _)
      ((closes_nil 0).follows.ends _) (closes_nil _).loose
  rw [regroup_text] at hnone
  simp only [expressionOf?, hnone]

/-- A text in which no two signs make one token is read in the shape that its row has by the table of the
grammar. -/
theorem exists_expressionOf?_regroup {p : Written} (hp : p.Proper) (hl : p.Loose) :
    ∃ node, expressionOf? p.text = some node ∧ node.Shows p.text 0 (p.regroup .grammar) := by
  have hg : (p.regroup .grammar).Grouped :=
    groupedBy_iff.2 ⟨regroup_bound .grammar hp, (regroup_loose .grammar hp).2 hl⟩
  have hread := exists_expressionOf? (regroup_proper .grammar hp) hg
  rwa [regroup_text] at hread

end Written

/-! ## Reading by a table -/

/-- The bytes between two positions of a source. -/
def stretch (source : Bytes) (start stop : Nat) : Bytes := (source.drop start).take (stop - start)

/-- The operator with given bytes. -/
def operatorWith (bytes : Bytes) : BinaryOperator :=
  (operators.find? (·.bytes == bytes)).getD ⟨".", 14, false⟩

/-- An expression as its node shows it, with what the source has between its parts. -/
def Written.ofNode (source : Bytes) : Node → Written
  | .mk .parenthesized start stop [x] =>
    .parenthesized (stretch source (start + 1) x.start) (ofNode source x) (stretch source x.stop (stop - 1))
  | .mk .unaryOperation start _ [x] =>
    .sign ((source.drop start).headD 0) (stretch source (start + 1) x.start) (ofNode source x)
  | .mk .binaryOperation _ _ [left, op, right] =>
    .binary ⟨operatorWith ((op.bytes source).map lowerByte), stretch source left.stop op.start,
        op.bytes source, stretch source op.stop right.start⟩
      (ofNode source left) (ofNode source right)
  | n => .atom (n.bytes source)

/-- The tree of a text that is one expression from end to end, by a table: what the grammar reads, in the
shape that the table gives it. -/
def readTreeBy? (table : Table) (source : Bytes) : Option OperatorTree :=
  (expressionOf? source).map fun n => ((Written.ofNode source n).regroup table).tree

theorem operatorWith_bytes {o : BinaryOperator} (ho : o ∈ operators) : operatorWith o.bytes = o := by
  simp only [operators, wordOperators, signOperators, List.cons_append, List.nil_append, List.mem_cons,
    List.not_mem_nil, or_false] at ho
  rcases ho with rfl | rfl | rfl | rfl | rfl | rfl | rfl | rfl | rfl | rfl | rfl | rfl | rfl | rfl |
    rfl | rfl | rfl | rfl | rfl | rfl | rfl | rfl | rfl | rfl | rfl | rfl | rfl | rfl <;> rfl

theorem Written.ofNode_atomic {source : Bytes} {n : Node} (h : n.kind.isAtomic = true) :
    ofNode source n = .atom (n.bytes source) := by
  unfold ofNode
  split
  · cases h
  · cases h
  · cases h
  · rfl

/-- What stands in the middle of a text that a node covers. -/
theorem Node.Covers.stretch {n : Node} {source : Bytes} {start i j : Nat} {t a b c : Bytes}
    (h : n.Covers source start t) (ht : t = a ++ (b ++ c)) (hi : i = start + a.length)
    (hj : j = i + b.length) : Php.stretch source i j = b := by
  subst ht hi hj
  have hbytes : (source.drop start).take (a.length + (b.length + c.length)) = a ++ (b ++ c) := by
    have hcovered := h.bytes
    rwa [Node.bytes, h.starts, h.stops, Nat.add_sub_cancel_left, List.length_append,
      List.length_append] at hcovered
  have hbehind : ((source.drop start).drop a.length).take (b.length + c.length) = b ++ c := by
    have hdrop := congrArg (List.drop a.length) hbytes
    rwa [List.drop_left, List.drop_take, Nat.add_sub_cancel_left] at hdrop
  have htake := congrArg (List.take b.length) hbehind
  rw [List.take_left, List.take_take, Nat.min_eq_left (Nat.le_add_right _ _), List.drop_drop] at htake
  rw [Php.stretch, Nat.add_sub_cancel_left, htake]

theorem Node.Covers.headD {n : Node} {source : Bytes} {start : Nat} {b : UInt8} {t : Bytes}
    (h : n.Covers source start (b :: t)) : (source.drop start).headD 0 = b := by
  have hbytes := h.bytes
  rw [Node.bytes, h.starts, h.stops, Nat.add_sub_cancel_left, List.length_cons] at hbytes
  cases hdrop : source.drop start with
  | nil => rw [hdrop] at hbytes; cases hbytes
  | cons a rest =>
    rw [hdrop] at hbytes
    exact (List.cons.inj hbytes).1

namespace Node.WrittenAs

variable {source : Bytes} {n : Node} {p : Written}

theorem stop (h : n.WrittenAs source p) : n.stop = n.start + p.text.length := h.covers.stops

/-- A node shows the expression that it stands for. -/
theorem ofNode (h : n.WrittenAs source p) (hp : p.Formed) : Written.ofNode source n = p := by
  induction h with
  | atom atomic covers => rw [Written.ofNode_atomic atomic, covers.bytes]
  | @parenthesized start stop x g k p inner behind covers ih =>
    have hstop : stop = start + (Written.parenthesized g p k).text.length := covers.stops
    have hlength : (Written.parenthesized g p k).text.length = 1 + g.length + p.text.length + k.length + 1 := by
      simp only [Written.text, List.length_cons, List.length_append, List.length_nil]
      omega
    have hafter := inner.stop
    have hbefore : stretch source (start + 1) x.start = g :=
      covers.stretch (a := [40]) (c := p.text ++ (k ++ [41])) rfl rfl behind
    have hbehind : stretch source x.stop (stop - 1) = k :=
      covers.stretch (a := 40 :: (g ++ p.text)) (c := [41]) (by simp [Written.text])
        (by simp only [List.length_cons, List.length_append]; omega) (by omega)
    rw [Written.ofNode, ih hp.2.1, hbefore, hbehind]
  | @sign start stop x op g p operand behind covers ih =>
    have hgap : stretch source (start + 1) x.start = g :=
      covers.stretch (a := [op]) (c := p.text) rfl rfl behind
    rw [Written.ofNode, ih hp.2.2, covers.headD, hgap]
  | @binary start stop i j x y m l r left right first between behind covers ihl ihr =>
    have hstop := left.stop
    have hsign : i = x.stop + m.before.length := between.starts
    have hbehind : j = x.stop + m.before.length + m.sign.length := between.stops
    have hbefore : stretch source x.stop i = m.before :=
      covers.stretch (a := l.text) (c := m.sign ++ (m.after ++ r.text)) rfl (by omega) hsign
    have hafter : stretch source j y.start = m.after :=
      covers.stretch (a := l.text ++ (m.before ++ m.sign)) (c := r.text) (by simp [Written.text])
        (by simp only [List.length_append]; omega) behind
    have hmark : OperatorMark.mk (operatorWith (((Node.mk .operator i j []).bytes source).map lowerByte))
        (stretch source x.stop i) ((Node.mk .operator i j []).bytes source) (stretch source j y.start) =
          m := by
      rw [between.bytes, hp.1.spelled, operatorWith_bytes hp.1.operator, hbefore, hafter]
    rw [Written.ofNode, ihl hp.2.1, ihr hp.2.2]
    exact congrArg (Written.binary · l r) hmark

end Node.WrittenAs

namespace Written

variable {table : Table} {p : Written}

/-- By a table a text is read in the shape that its row has by the table, unless two signs make one token. -/
theorem readTreeBy?_text (table : Table) (hp : p.Proper) (hl : p.Loose) :
    readTreeBy? table p.text = some (p.regroup table).tree := by
  obtain ⟨node, hnode, hshows⟩ := exists_expressionOf?_regroup hp hl
  rw [readTreeBy?, hnode, Option.map_some, hshows.spells.writtenAs.ofNode
    (regroup_proper .grammar hp).formed, regroup_regroup]

/-- By the table of the grammar a text is read as the grammar reads it. -/
theorem readTreeBy?_grammar (hp : p.Proper) : readTreeBy? .grammar p.text = readTree? p.text := by
  by_cases hl : p.Loose
  · obtain ⟨node, hnode, hshows⟩ := exists_expressionOf?_regroup hp hl
    rw [readTreeBy?_text .grammar hp hl, readTree?, hnode, Option.map_some, hshows.tree]
  · rw [readTreeBy?, readTree?, expressionOf?_eq_none hp hl]
    rfl

/-- By either table a text is read as the tree that it was written from exactly if it is grouped by the
table. -/
theorem readTreeBy?_text_iff (hp : p.Proper) :
    readTreeBy? table p.text = some p.tree ↔ p.GroupedBy table := by
  rw [groupedBy_iff, ← regroup_tree_iff hp]
  by_cases hl : p.Loose
  · rw [readTreeBy?_text table hp hl, Option.some.injEq]
    simp only [hl, and_true]
  · rw [readTreeBy?, expressionOf?_eq_none hp hl]
    simp [hl]

/-- A text is read as the tree that it was written from exactly if it is grouped. -/
theorem readTree?_text_iff (hp : p.Proper) : readTree? p.text = some p.tree ↔ p.Grouped := by
  rw [← readTreeBy?_grammar hp, readTreeBy?_text_iff hp, Grouped]

end Written

end FacadeStubs.Php
