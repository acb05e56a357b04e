import FacadeStubs.Proofs.Reader.Marks
import FacadeStubs.Proofs.Text.Utf8

/-!
# Reading operations

An expression is written as a row of operands with operators between them, and the grammar gives the
row the shape of a tree. `Written` is an expression together with the parentheses that it is written
with and with what stands between its tokens; `Written.Grouped` says that the operators around each
operand leave it where it stands.

The strengths are those of the operators that the grammar reads with. In its table a sign in front of
an operand binds more tightly than every operator, also more tightly than `**`: a negative number in
front of `**` is the left operand of it, and so is any operand behind a sign. PHP itself reads the sign
last there. A `Table` says which of the two is meant; all that is read here is read with the table of
the grammar.

Results:
* `Written.reads`: what is grouped is read as the tree that it was written from, wherever it stands.
* `readTree?_text`: the same of a whole text.
-/
namespace FacadeStubs.Php

open Lexical Reader Analysis

/-! ## What follows an expression -/

/-- Bytes in front of which an operator, if one comes, binds less tightly than a strength. -/
def BindsLess (least : Nat) (u : Bytes) : Prop :=
  ∀ o, operatorAt? (u.drop (gaps u)) = some o → o.strength < least

theorem BindsLess.mono {m n : Nat} {u : Bytes} (h : BindsLess m u) (hmn : m ≤ n) : BindsLess n u :=
  fun o ho => Nat.lt_of_lt_of_le (h o ho) hmn

/-- Bytes behind an expression that an operator of less than a strength may begin. -/
structure Closes (least : Nat) (u : Bytes) : Prop where
  follows : Follows u
  loose : BindsLess least u

theorem Closes.mono {m n : Nat} {u : Bytes} (h : Closes m u) (hmn : m ≤ n) : Closes n u :=
  ⟨h.follows, h.loose.mono hmn⟩

theorem closes_nil (least : Nat) : Closes least [] := ⟨follows_nil, fun o ho => by cases ho⟩

theorem closes_closer {least : Nat} {b : UInt8} {u : Bytes} (h : isCloser b = true) :
    Closes least (b :: u) := by
  refine ⟨follows_closer h, fun o ho => ?_⟩
  have hb : b = 41 ∨ b = 44 ∨ b = 59 ∨ b = 93 := by simpa [isCloser, or_assoc] using h
  have htoken : BeginsToken (b :: u) :=
    beginsToken_solid (by rcases hb with rfl | rfl | rfl | rfl <;> rfl)
  have hword : wordAt (b :: u) = "" :=
    wordAt_boundary (boundary_cons (by rcases hb with rfl | rfl | rfl | rfl <;> rfl))
  have hnone : operatorAt? (b :: u) = none := by
    unfold operatorAt?
    rw [hword]
    rcases hb with rfl | rfl | rfl | rfl <;> rfl
  rw [htoken.gaps, List.drop_zero, hnone] at ho
  cases ho

/-- What ends an expression ends it behind a gap as well. -/
theorem closes_gap {least : Nat} {g : Bytes} {b : UInt8} {u : Bytes} (hg : IsGap g)
    (h : isCloser b = true) : Closes least (g ++ b :: u) := by
  have hcloses : Closes least (b :: u) := closes_closer h
  have htoken : BeginsToken (b :: u) := by
    have hb : b = 41 ∨ b = 44 ∨ b = 59 ∨ b = 93 := by simpa [isCloser, or_assoc] using h
    exact beginsToken_solid (by rcases hb with rfl | rfl | rfl | rfl <;> rfl)
  have hdrop : (g ++ b :: u).drop (gaps (g ++ b :: u)) = b :: u := (next_append hg htoken).drop_gaps
  have hself : (b :: u).drop (gaps (b :: u)) = b :: u := by rw [htoken.gaps, List.drop_zero]
  refine ⟨⟨?_, ?_, ?_⟩, ?_⟩
  · exact hg.boundary hcloses.follows.boundary
  · exact hg.head?_ne_point hcloses.follows.point
  · rw [hdrop]
    simpa only [hself] using hcloses.follows.settled
  · intro o ho
    rw [hdrop] at ho
    exact hcloses.loose o (by rwa [hself])

theorem OperatorMark.Fits.bindsLess {m : OperatorMark} {left right : Bytes} (h : m.Fits left right)
    (hright : right ≠ []) {least : Nat} (hleast : m.operator.strength < least) (w : Bytes) :
    BindsLess least (m.before ++ (m.sign ++ (m.after ++ (right ++ w)))) := by
  intro o ho
  rw [(h.begins hright w).drop_gaps, (h.standsAs hright w).at?] at ho
  cases ho
  exact hleast

section
variable {g : Grammar} {c : Cursor} {left : Node} {least fuel : Nat}

/-- Nothing more is read where what follows binds less tightly. -/
theorem run_operationsWithin_closes (ht : c.tagEnds = false)
    (hsettled : Settled (c.rest.drop (gaps c.rest))) (hloose : BindsLess least c.rest) :
    (operationsWithin g least fuel left).run c = some (left, c) := by
  cases fuel with
  | zero => rfl
  | succ fuel =>
    unfold operationsWithin
    rw [run_bind_some (run_behindOperand ht)]
    cases ho : operatorAt? (c.rest.drop (gaps c.rest)) with
    | some o =>
      dsimp only
      rw [if_pos (hloose o ho)]
      rfl
    | none =>
      simp only [hsettled.condition]
      rfl

/-- An operator that binds tightly enough takes what was read as its left operand. -/
theorem run_operationsWithin_operator {m : OperatorMark} {l r w : Bytes} (hm : m.Fits l r) (hne : r ≠ [])
    (hr : c.rest = m.before ++ (m.sign ++ (m.after ++ (r ++ w)))) (hleast : least ≤ m.operator.strength) :
    (operationsWithin g least (fuel + 1) left).run c = (do
      let right ← g.expression m.operator.rightLeast
      operationsWithin g least fuel (.mk .binaryOperation left.start right.stop [left,
        .mk .operator (c.offset + m.before.length) (c.offset + (m.before.length + m.sign.length)) [],
        right]) : Reader Node).run (c.past (m.before.length + m.sign.length)) := by
  have hs := hm.standsAs hne w
  have hnext := hm.begins hne w
  have hgap : gaps c.rest = m.before.length := by rw [hr, hm.before.gaps hs.begins]
  have hbehind : c.rest.drop m.before.length = m.sign ++ (m.after ++ (r ++ w)) := by
    rw [hr, List.drop_left]
  have hsign : (operatorSign m.operator).run c =
      some (.mk .operator (c.offset + m.before.length)
        (c.offset + (m.before.length + m.sign.length)) [], c.past (m.before.length + m.sign.length)) := by
    unfold operatorSign
    refine run_leaf (d := c.past (m.before.length + m.sign.length)) hgap ?_
    rw [run_bind_some run_remaining, Cursor.past_rest, hbehind, hs.length, run_advance, Cursor.past_past]
  rw [operationsWithin, run_bind_some (hr ▸ hnext).run_behindOperand, hs.at?]
  dsimp only
  rw [if_neg (by omega), run_bind_some hsign]
  rfl

end

/-! ## Trees of operators -/

/-- An expression without the parentheses that group it. Words as operators have small letters. -/
inductive OperatorTree where
  /-- Anything but an operation, as it is written. -/
  | atom (text : Bytes)
  | sign (op : UInt8) (operand : OperatorTree)
  | binary (op : Bytes) (left right : OperatorTree)
  deriving DecidableEq, Repr

/-- The operations of a node. -/
def OperatorTree.ofNode (source : Bytes) : Node → OperatorTree
  | .mk .parenthesized _ _ [x] => ofNode source x
  | .mk .unaryOperation start _ [x] => .sign ((source.drop start).headD 0) (ofNode source x)
  | .mk .binaryOperation _ _ [left, op, right] =>
    .binary ((op.bytes source).map lowerByte) (ofNode source left) (ofNode source right)
  | n => .atom (n.bytes source)

/-- The node of a text that is one expression from end to end. -/
def expressionOf? (source : Bytes) : Option Node :=
  let g := Grammar.upTo true (source.length + 1)
  match (g.expression Strength.any).run { rest := source, offset := 0, size := source.length } with
  | some (node, c) => if c.rest.isEmpty then some node else none
  | none => none

/-- The tree of a text that is one expression from end to end. -/
def readTree? (source : Bytes) : Option OperatorTree := (expressionOf? source).map (.ofNode source)

/-- An expression as it is written, with the gaps between its tokens. -/
inductive Written where
  /-- Anything but an operation. -/
  | atom (text : Bytes)
  | parenthesized (before : Bytes) (inner : Written) (after : Bytes)
  | sign (op : UInt8) (gap : Bytes) (operand : Written)
  | binary (mark : OperatorMark) (left right : Written)

/-- The two ways to read a sign in front of an operand and an operator: the grammar takes the sign first
in any case, and PHP itself takes `**` before it. -/
inductive Table where
  | grammar
  | php
  deriving DecidableEq

/-- How tightly an operator has to bind to reach into the operand of a sign. -/
def Table.signs : Table → Nat
  | grammar => 19
  | php => 18

namespace Written

/-- The bytes of an expression. -/
def text : Written → Bytes
  | atom t => t
  | parenthesized g p k => 40 :: (g ++ (p.text ++ (k ++ [41])))
  | sign op g p => op :: (g ++ p.text)
  | binary m l r => l.text ++ (m.before ++ (m.sign ++ (m.after ++ r.text)))

/-- The tree from which an expression is written. -/
def tree : Written → OperatorTree
  | atom t => .atom t
  | parenthesized _ p _ => p.tree
  | sign op _ p => .sign op p.tree
  | binary m l r => .binary m.operator.bytes l.tree r.tree

/-- The last operand of an expression as it is written; a parenthesis for one in parentheses. -/
def last : Written → Bytes
  | atom t => t
  | parenthesized _ _ _ => [41]
  | sign _ _ p => p.last
  | binary _ _ r => r.last

/-- Whether an expression is an operand on its own. -/
def isUnit : Written → Bool
  | binary _ _ _ => false
  | _ => true

/-- How tightly the parts of an expression hold together; the parts of an operand hold more tightly
than any operator. -/
def strength (table : Table) : Written → Nat
  | binary m _ _ => m.operator.strength
  | sign _ _ _ => table.signs
  | _ => 19

/-- How tightly an operator may bind that follows an expression. -/
def closing : Written → Nat
  | binary m _ _ => m.operator.rightLeast
  | _ => 19

/-- Two plus or two minus signs with nothing between them are one token. -/
def glues (op : UInt8) (gap : Bytes) (p : Written) : Bool :=
  (op == 43 || op == 45) && gap.isEmpty && p.text.head? == some op

/-- Every operand is left by the operators around it where it is written: no operand of an operator
binds less tightly than the operator demands, and a sign stands in front of an operand that holds
together behind it, without making one token with a sign of it. -/
def GroupedBy (table : Table) : Written → Prop
  | atom _ => True
  | parenthesized _ p _ => p.GroupedBy table
  | sign op g p => p.GroupedBy table ∧ table.signs ≤ p.strength table ∧ glues op g p = false
  | binary m l r => l.GroupedBy table ∧ r.GroupedBy table ∧
    m.operator.leftLeast ≤ l.strength table ∧ m.operator.rightLeast ≤ r.strength table

instance decidableGroupedBy (table : Table) : (p : Written) → Decidable (p.GroupedBy table)
  | atom _ => inferInstanceAs (Decidable True)
  | parenthesized _ p _ => decidableGroupedBy table p
  | sign op g p =>
    have := decidableGroupedBy table p
    inferInstanceAs (Decidable
      (p.GroupedBy table ∧ table.signs ≤ p.strength table ∧ glues op g p = false))
  | binary m l r =>
    have := decidableGroupedBy table l
    have := decidableGroupedBy table r
    inferInstanceAs (Decidable (l.GroupedBy table ∧ r.GroupedBy table ∧
      m.operator.leftLeast ≤ l.strength table ∧ m.operator.rightLeast ≤ r.strength table))

/-- The operators around each operand leave it where it is written, as the grammar reads. -/
def Grouped (p : Written) : Prop := p.GroupedBy .grammar

instance (p : Written) : Decidable p.Grouped := inferInstanceAs (Decidable (p.GroupedBy .grammar))

end Written

/-! ## Texts that are operands -/

/-- Kinds of nodes that are neither operations nor declarations. -/
def Kind.isAtomic : Kind → Bool
  | .parenthesized | .unaryOperation | .binaryOperation => false
  | kind => !isLandmark kind

theorem OperatorTree.ofNode_atomic {source : Bytes} {kind : Kind} {start stop : Nat}
    {children : List Node} (h : kind.isAtomic = true) :
    ofNode source (.mk kind start stop children) =
      .atom (Node.bytes source (.mk kind start stop children)) := by
  unfold ofNode
  split
  · rename_i heq
    cases heq
    cases h
  · rename_i heq
    cases heq
    cases h
  · rename_i heq
    cases heq
    cases h
  · rfl

theorem isLandmark_atomic {kind : Kind} (h : kind.isAtomic = true) : isLandmark kind = false := by
  unfold Kind.isAtomic at h
  split at h
  · cases h
  · cases h
  · cases h
  · simpa using h

/-- A text that is read whole as one operand without operations, with whatever may follow it. In
front of it neither a sign nor a parenthesis turns into something else. -/
structure IsAtom (t : Bytes) : Prop where
  begins : ∀ u, BeginsToken (t ++ u)
  head : ∃ b rest, t = b :: rest ∧ isSign b = false
  noCast : ∀ u, (isClosed t = false → Boundary u) → castTypes.contains (wordAt (t ++ u)) = false
  reads : ∀ (long : Bool) (n : Nat) (c : Cursor) (u : Bytes), c.tagEnds = false →
    c.rest.length ≤ c.size → c.rest = t ++ u → Ends t u →
      ∃ kind children extent rank, kind.isAtomic = true ∧ (∀ m ∈ children, m.IsBare) ∧
        (extent = .value ∨ extent = .closed) ∧ (operandWith (Grammar.upTo long n)).run c =
          some (⟨.mk kind c.offset (c.offset + t.length) children, extent, rank⟩, c.past t.length)

namespace Written

/-- The parts of an expression are what they are written as: atoms, signs and operators with gaps between
them. -/
def Proper : Written → Prop
  | atom t => IsAtom t
  | parenthesized g p k => IsGap g ∧ p.Proper ∧ IsGap k
  | sign op g p => isSign op = true ∧ IsGap g ∧ p.Proper
  | binary m l r => m.Fits l.last r.text ∧ l.Proper ∧ r.Proper

/-- The operators of an expression can be told from its operands, whatever these are. -/
def Formed : Written → Prop
  | atom t => t ≠ []
  | parenthesized g p k => IsGap g ∧ p.Formed ∧ IsGap k
  | sign op g p => isSign op = true ∧ IsGap g ∧ p.Formed
  | binary m l r => m.Fits l.last r.text ∧ l.Formed ∧ r.Formed

theorem Formed.text_ne_nil : ∀ {p : Written}, p.Formed → p.text ≠ []
  | atom _, h => h
  | parenthesized _ _ _, _ | sign _ _ _, _ => List.cons_ne_nil _ _
  | binary _ _ _, h => by simp [text, h.2.1.text_ne_nil]

theorem Proper.formed : ∀ {p : Written}, p.Proper → p.Formed
  | atom _, h => by
    obtain ⟨b, rest, rfl, -⟩ := h.head
    exact List.cons_ne_nil b rest
  | parenthesized _ _ _, h => ⟨h.1, h.2.1.formed, h.2.2⟩
  | sign _ _ _, h => ⟨h.1, h.2.1, h.2.2.formed⟩
  | binary _ _ _, h => ⟨h.1, h.2.1.formed, h.2.2.formed⟩

theorem Proper.text_ne_nil {p : Written} (h : p.Proper) : p.text ≠ [] := h.formed.text_ne_nil

end Written

/-! ## Reading what is written -/

/-- A node stands at a place of the source and covers a text there. -/
structure Node.Covers (n : Node) (source : Bytes) (start : Nat) (t : Bytes) : Prop where
  starts : n.start = start
  stops : n.stop = start + t.length
  bytes : n.bytes source = t

theorem Cursor.In.covers {c : Cursor} {source t u : Bytes} {i : Nat} (h : c.In source) (kind : Kind)
    (children : List Node) (hr : c.rest.drop i = t ++ u) :
    (Node.mk kind (c.offset + i) (c.offset + (i + t.length)) children).Covers source (c.offset + i) t where
  starts := rfl
  stops := (Nat.add_assoc _ _ _).symm
  bytes := by rw [h.bytes, hr, List.take_left]

/-- A node is put together as an expression is: its atoms are the operands that are read where they
stand, and its operations are those of the expression, with the gaps between their parts. -/
inductive Node.Spells (source : Bytes) : Node → Written → Prop
  | atom {g : Grammar} {c : Cursor} {t u : Bytes} {o : Operand} (place : c.In source)
      (mode : c.tagEnds = false) (rest : c.rest = t ++ u) (ends : Ends t u)
      (reads : (operandWith g).run c = some (o, c.past t.length)) (atomic : o.node.kind.isAtomic = true)
      (covers : o.node.Covers source c.offset t) : Spells source o.node (.atom t)
  | parenthesized {start stop : Nat} {x : Node} {g k : Bytes} {p : Written} (inner : Spells source x p)
      (behind : x.start = start + 1 + g.length)
      (covers : (Node.mk .parenthesized start stop [x]).Covers source start
        (Written.parenthesized g p k).text) :
      Spells source (.mk .parenthesized start stop [x]) (.parenthesized g p k)
  | sign {start stop : Nat} {x : Node} {op : UInt8} {g : Bytes} {p : Written} (operand : Spells source x p)
      (behind : x.start = start + 1 + g.length)
      (covers : (Node.mk .unaryOperation start stop [x]).Covers source start (Written.sign op g p).text) :
      Spells source (.mk .unaryOperation start stop [x]) (.sign op g p)
  | binary {start stop i j : Nat} {x y : Node} {m : OperatorMark} {l r : Written}
      (left : Spells source x l) (right : Spells source y r) (first : x.start = start)
      (between : (Node.mk .operator i j []).Covers source (x.stop + m.before.length) m.sign)
      (behind : y.start = j + m.after.length)
      (covers : (Node.mk .binaryOperation start stop [x, .mk .operator i j [], y]).Covers source start
        (Written.binary m l r).text) :
      Spells source (.mk .binaryOperation start stop [x, .mk .operator i j [], y]) (.binary m l r)

/-- A node stands in its source as an expression is written: its operations are those of the expression,
with the gaps between their parts. How its atoms were read is left open. -/
inductive Node.WrittenAs (source : Bytes) : Node → Written → Prop
  | atom {n : Node} {t : Bytes} (atomic : n.kind.isAtomic = true) (covers : n.Covers source n.start t) :
      WrittenAs source n (.atom t)
  | parenthesized {start stop : Nat} {x : Node} {g k : Bytes} {p : Written} (inner : WrittenAs source x p)
      (behind : x.start = start + 1 + g.length)
      (covers : (Node.mk .parenthesized start stop [x]).Covers source start
        (Written.parenthesized g p k).text) :
      WrittenAs source (.mk .parenthesized start stop [x]) (.parenthesized g p k)
  | sign {start stop : Nat} {x : Node} {op : UInt8} {g : Bytes} {p : Written} (operand : WrittenAs source x p)
      (behind : x.start = start + 1 + g.length)
      (covers : (Node.mk .unaryOperation start stop [x]).Covers source start (Written.sign op g p).text) :
      WrittenAs source (.mk .unaryOperation start stop [x]) (.sign op g p)
  | binary {start stop i j : Nat} {x y : Node} {m : OperatorMark} {l r : Written}
      (left : WrittenAs source x l) (right : WrittenAs source y r) (first : x.start = start)
      (between : (Node.mk .operator i j []).Covers source (x.stop + m.before.length) m.sign)
      (behind : y.start = j + m.after.length)
      (covers : (Node.mk .binaryOperation start stop [x, .mk .operator i j [], y]).Covers source start
        (Written.binary m l r).text) :
      WrittenAs source (.mk .binaryOperation start stop [x, .mk .operator i j [], y]) (.binary m l r)

theorem Node.WrittenAs.covers {source : Bytes} {n : Node} {p : Written} (h : n.WrittenAs source p) :
    n.Covers source n.start p.text := by
  cases h with
  | atom _ covers => exact covers
  | parenthesized _ _ covers => exact covers
  | sign _ _ covers => exact covers
  | binary _ _ _ _ _ covers => exact covers

theorem Node.Spells.writtenAs {source : Bytes} {n : Node} {p : Written} (h : n.Spells source p) :
    n.WrittenAs source p := by
  induction h with
  | atom _ _ _ _ _ atomic covers => exact .atom atomic ⟨rfl, covers.starts ▸ covers.stops, covers.bytes⟩
  | parenthesized _ behind covers ih => exact .parenthesized ih behind covers
  | sign _ behind covers ih => exact .sign ih behind covers
  | binary _ _ first between behind covers ihl ihr => exact .binary ihl ihr first between behind covers

/-- A node that covers what an expression is written as, and has its tree. -/
structure Node.Shows (n : Node) (source : Bytes) (start : Nat) (p : Written) : Prop
    extends n.Covers source start p.text where
  spells : n.Spells source p
  tree : OperatorTree.ofNode source n = p.tree
  bare : n.IsBare

namespace Written

/-- Where an operand is expected, the expression is read as one. -/
def ReadsAsOperand (p : Written) : Prop :=
  ∀ ⦃long : Bool⦄ ⦃n : Nat⦄ ⦃source : Bytes⦄ ⦃c : Cursor⦄ ⦃u : Bytes⦄, p.text.length ≤ n → c.In source →
    c.tagEnds = false → c.rest = p.text ++ u → Ends p.last u →
    ∃ o : Operand, (operandWith (Grammar.upTo long n)).run c = some (o, c.past p.text.length) ∧
      (o.extent = .value ∨ o.extent = .closed) ∧ o.node.Shows source c.offset p

/-- Where an expression is expected whose operators bind at least as tightly as `least`, the
expression is read as its first part, whatever operators follow that do not reach into it. -/
def ReadsInFront (p : Written) : Prop :=
  ∀ ⦃long : Bool⦄ ⦃n : Nat⦄ ⦃source : Bytes⦄ ⦃c : Cursor⦄ ⦃u : Bytes⦄ ⦃least : Nat⦄, p.text.length ≤ n →
    c.In source → c.tagEnds = false → c.rest = p.text ++ u → least ≤ p.strength .grammar →
    Ends p.last u → BindsLess p.closing u →
    ∃ node fuel, c.size + 1 ≤ fuel + p.text.length ∧ node.Shows source c.offset p ∧
      (expressionWith (Grammar.upTo long n) least).run c =
        (operationsWithin (Grammar.upTo long n) least fuel node).run (c.past p.text.length)

theorem ReadsAsOperand.readsInFront {p : Written} (h : p.ReadsAsOperand) : p.ReadsInFront := by
  intro long n source c u least hn hin ht hr _ hends _
  obtain ⟨o, hrun, hext, hshows⟩ := h hn hin ht hr hends
  have hsettled : Settled ((c.past p.text.length).rest.drop (gaps (c.past p.text.length).rest)) := by
    rw [Cursor.past_rest_append hr]
    exact hends.settled
  have hplace : o.extent ≠ .place := by rcases hext with h | h <;> simp [h]
  have hpattern : o.extent ≠ .pattern := by rcases hext with h | h <;> simp [h]
  refine ⟨o.node, c.size + 1, by omega, hshows, ?_⟩
  unfold expressionWith
  rw [run_bind_some hrun, run_bind_some (run_completed (c := c.past p.text.length) ht hsettled hplace
    hpattern), run_bind_some run_turns, Cursor.past_size]

/-! ### How an expression begins -/

theorem begins : ∀ {p : Written}, p.Proper → ∀ u, BeginsToken (p.text ++ u)
  | atom _, h, u => h.begins u
  | parenthesized _ _ _, _, _ => beginsToken_solid rfl
  | sign op _ _, h, _ => beginsToken_solid (by
      have hop : op = 43 ∨ op = 45 ∨ op = 33 ∨ op = 126 := isSign_iff.1 h.1
      rcases hop with rfl | rfl | rfl | rfl <;> rfl)
  | binary m l r, h, u => by
    have hl := begins h.2.1 (m.before ++ (m.sign ++ (m.after ++ r.text)) ++ u)
    simpa [text] using hl

/-- Nothing that an expression begins with is the word of a cast. -/
theorem noCast : ∀ {p : Written}, p.Proper → ∀ u, (isClosed p.last = false → Boundary u) →
    castTypes.contains (wordAt (p.text ++ u)) = false
  | atom _, h, u, hu => h.noCast u hu
  | parenthesized g p k, _, u, _ => by
    have hword : wordAt ((parenthesized g p k).text ++ u) = "" := wordAt_boundary (boundary_cons rfl)
    rw [hword]
    rfl
  | sign op g p, h, u, _ => by
    have hop : op = 43 ∨ op = 45 ∨ op = 33 ∨ op = 126 := isSign_iff.1 h.1
    have hword : wordAt ((sign op g p).text ++ u) = "" :=
      wordAt_boundary (boundary_cons (by rcases hop with rfl | rfl | rfl | rfl <;> rfl))
    rw [hword]
    rfl
  | binary m l r, h, u, _ => by
    have hl := noCast h.2.1 _ (h.1.ends h.2.2.text_ne_nil u).boundary
    simpa [text] using hl

theorem atCast_eq_false {g : Bytes} {p : Written} (hg : IsGap g) (h : p.Proper) {u : Bytes}
    (hu : Boundary u) : atCast (40 :: (g ++ (p.text ++ u))) = false := by
  have hgap := (next_append hg (begins h u)).drop_gaps
  have hcast := noCast h u fun _ => hu
  simp only [atCast, List.drop_succ_cons, List.drop_zero, hgap, hcast, Bool.false_and,
    Bool.and_false]

/-- The sign in front of an operand makes no step with it. -/
theorem head?_ne_sign {op : UInt8} {g : Bytes} {p : Written} (hop : op = 43 ∨ op = 45) (hg : IsGap g)
    (h : p.Proper) (hunit : p.isUnit = true) (hglue : glues op g p = false) (u : Bytes) :
    (g ++ (p.text ++ u)).head? ≠ some op := by
  cases g with
  | cons a g =>
    intro heq
    obtain rfl : a = op := by simpa using heq
    rcases hg.head_cases with ha | ha | ha <;> rcases hop with rfl | rfl <;> cases ha
  | nil =>
    rw [List.nil_append]
    cases p with
    | atom t =>
      obtain ⟨b, rest, rfl, hb⟩ := h.head
      intro heq
      obtain rfl : b = op := by simpa [text] using heq
      rcases hop with rfl | rfl <;> cases hb
    | parenthesized g q k => rcases hop with rfl | rfl <;> simp [text]
    | sign op' g q =>
      have hne : op' ≠ op := by
        rcases hop with rfl | rfl <;> simpa [glues, text] using hglue
      simpa [text] using hne
    | binary m l r => cases hunit

/-! ### Whole expressions -/

theorem strength_le_closing (p : Written) : p.strength .grammar ≤ p.closing := by
  cases p with
  | binary m l r =>
    simp only [strength, closing, BinaryOperator.rightLeast]
    split <;> omega
  | _ => exact Nat.le_refl _

/-- Where an expression is expected, the expression is read up to an operator that binds less
tightly than all that is expected. -/
theorem ReadsInFront.expressionUpTo {p : Written} (h : p.ReadsInFront) {long : Bool} {n : Nat}
    {source : Bytes} {c : Cursor} {u : Bytes} {least : Nat} (hn : p.text.length ≤ n) (hin : c.In source)
    (ht : c.tagEnds = false) (hr : c.rest = p.text ++ u) (hleast : least ≤ p.strength .grammar)
    (hends : Ends p.last u) (hloose : BindsLess least u) :
    ∃ node, (expressionWith (Grammar.upTo long n) least).run c =
      some (node, c.past p.text.length) ∧ node.Shows source c.offset p := by
  obtain ⟨node, fuel, -, hshows, hrun⟩ := h hn hin ht hr hleast hends
    (hloose.mono (Nat.le_trans hleast p.strength_le_closing))
  have hrest : (c.past p.text.length).rest = u := Cursor.past_rest_append hr
  exact ⟨node, hrun.trans (run_operationsWithin_closes (c := c.past p.text.length) ht
    (hrest ▸ hends.settled) (hrest ▸ hloose)), hshows⟩

theorem ReadsInFront.expressionWith {p : Written} (h : p.ReadsInFront) {long : Bool} {n : Nat} {source : Bytes}
    {c : Cursor} {u : Bytes} {least : Nat} (hn : p.text.length ≤ n) (hin : c.In source)
    (ht : c.tagEnds = false) (hr : c.rest = p.text ++ u) (hleast : least ≤ p.strength .grammar)
    (hclose : Closes least u) :
    ∃ node, (expressionWith (Grammar.upTo long n) least).run c =
      some (node, c.past p.text.length) ∧ node.Shows source c.offset p :=
  h.expressionUpTo hn hin ht hr hleast (hclose.follows.ends _) hclose.loose

/-- The gap in front of an operand is passed over. -/
theorem run_operandWith_gap (g : Grammar) {c : Cursor} {k : Nat}
    (hk : gapsBeforeAttributes c.rest = k) (h : BeginsToken (c.past k).rest) :
    (operandWith g).run c = (operandWith g).run (c.past k) := by
  have hprimary : (primary g).run c = (primary g).run (c.past k) := by
    unfold primary
    rw [run_bind_some run_openGap, run_bind_some run_openGap, hk, h.gapsBeforeAttributes,
      Cursor.past_zero]
  unfold operandWith
  rw [StateT.run_bind, StateT.run_bind, hprimary]

/-- The gap in front of an expression is passed over. -/
theorem run_expressionWith_gap (g : Grammar) (least : Nat) {c : Cursor} {k : Nat}
    (hk : gapsBeforeAttributes c.rest = k) (h : BeginsToken (c.past k).rest) :
    (Php.expressionWith g least).run c = (Php.expressionWith g least).run (c.past k) := by
  unfold Php.expressionWith
  rw [StateT.run_bind, StateT.run_bind, run_operandWith_gap g hk h]

/-! ### Form by form -/

theorem readsAsOperand_atom {t : Bytes} (h : IsAtom t) : (atom t).ReadsAsOperand := by
  intro long n source c u _ hin ht hr hu
  obtain ⟨kind, children, extent, rank, hkind, hbare, hext, hrun⟩ :=
    h.reads long n c u ht hin.fits hr hu
  have hcovers : (Node.mk kind c.offset (c.offset + t.length) children).Covers source c.offset t := by
    have hplace := hin.covers (i := 0) kind children hr
    rwa [Nat.zero_add] at hplace
  refine ⟨_, hrun, hext, hcovers, .atom hin ht hr hu hrun hkind hcovers, ?_,
    isBare_of (isLandmark_atomic hkind) hbare⟩
  rw [OperatorTree.ofNode_atomic hkind, hcovers.bytes, tree]

section
variable {r : Grammar} {c : Cursor} {g k w : Bytes}

/-- Parentheses around an expression, with gaps inside them. -/
theorem run_parenthesized {x : Node} {t : Bytes} (hg : IsGap g) (hk : IsGap k)
    (hr : c.rest = 40 :: (g ++ (t ++ (k ++ 41 :: w)))) (ht : c.tagEnds = false)
    (hx : BeginsToken (t ++ (k ++ 41 :: w)))
    (h : (r.expression Strength.any).run (c.past (1 + g.length)) =
      some (x, c.past (1 + g.length + t.length))) :
    (Php.parenthesized r).run c = some (.mk .parenthesized c.offset
      (c.offset + (40 :: (g ++ (t ++ (k ++ [41])))).length) [x],
        c.past (40 :: (g ++ (t ++ (k ++ [41])))).length) := by
  have hgap : gaps c.rest = 0 := by rw [hr]; exact (beginsToken_solid rfl).gaps
  have hopens : beginsWith "(" c.rest = true := by rw [hr]; rfl
  have h1 : (c.past 1).rest = g ++ (t ++ (k ++ 41 :: w)) := by simp [hr]
  have hend : c.rest.drop (0 + 1 + (g.length + t.length)) = k ++ 41 :: w := by
    have hsplit : c.rest = (40 :: (g ++ t)) ++ (k ++ 41 :: w) := by simp [hr]
    have hlength : 0 + 1 + (g.length + t.length) = (40 :: (g ++ t)).length := by
      simp only [List.length_cons, List.length_append]
      omega
    rw [hsplit, hlength, List.drop_left]
  have hclose : gaps (k ++ 41 :: w) = k.length := hk.gaps (beginsToken_solid rfl)
  have hinside : (do
      let before ← interpolations true
      return before ++ [← r.expression Strength.any] : Reader (List Node)).run (c.past (0 + 1)) =
      some ([x], c.past (0 + 1 + (g.length + t.length))) := by
    rw [Nat.zero_add, run_bind_some (hg.run_interpolations hx h1 true), Cursor.past_past,
      run_bind_some h, Nat.add_assoc]
    rfl
  have hbetween := run_between "(" ")" rfl rfl (m := k.length) ht hgap hopens hinside
    (by rw [hend]; exact hclose) (by rw [← List.drop_drop, hend, List.drop_left]; rfl)
  have hlength : (40 :: (g ++ (t ++ (k ++ [41])))).length =
      0 + 1 + (g.length + t.length) + (k.length + 1) := by
    simp only [List.length_cons, List.length_append, List.length_nil]
    omega
  unfold Php.parenthesized
  rw [run_nodeOf hgap hbetween, hlength]
  rfl

theorem run_parenthesized_none (hg : IsGap g) (hr : c.rest = 40 :: (g ++ w)) (ht : c.tagEnds = false)
    (hw : BeginsToken w) (h : (r.expression Strength.any).run (c.past (1 + g.length)) = none) :
    (Php.parenthesized r).run c = none := by
  have hgap : gaps c.rest = 0 := by rw [hr]; exact (beginsToken_solid rfl).gaps
  have hopens : beginsWith "(" c.rest = true := by rw [hr]; rfl
  have h1 : (c.past 1).rest = g ++ w := by simp [hr]
  unfold Php.parenthesized
  refine run_nodeOf_none hgap ?_
  unfold between
  rw [Cursor.past_zero, run_bind_some (run_symbol_at (n := 1) hgap hopens rfl)]
  refine run_bind_none (run_inner_none ht ?_)
  rw [run_bind_some (hg.run_interpolations hw h1 true), Cursor.past_past]
  exact run_bind_none h

end

theorem readsAsOperand_parenthesized {g k : Bytes} {p : Written} (hg : IsGap g) (hp : p.Proper)
    (hk : IsGap k) (h : p.ReadsInFront) : (parenthesized g p k).ReadsAsOperand := by
  intro long n source c u hn hin ht hr hu
  have hlen : (parenthesized g p k).text.length = 1 + g.length + p.text.length + (k.length + 1) := by
    simp only [text, List.length_cons, List.length_append, List.length_nil]
    omega
  obtain ⟨m, rfl⟩ : ∃ m, n = m + 1 := ⟨n - 1, by omega⟩
  have hr' : c.rest = 40 :: (g ++ (p.text ++ (k ++ 41 :: u))) := by simp [hr, text]
  have h1 : (c.past (1 + g.length)).rest = p.text ++ (k ++ 41 :: u) := by
    rw [← Cursor.past_past]
    exact Cursor.past_rest_append (by simp [hr'])
  obtain ⟨x, hx, hshows⟩ := h.expressionWith (n := m) (by omega) (hin.past _) ht h1
    (Nat.zero_le _) (closes_gap hk rfl)
  have hclose : Closes Strength.any (k ++ 41 :: u) := closes_gap hk rfl
  have hcast : atCast c.rest = false := by
    rw [hr']
    exact atCast_eq_false hg hp hclose.follows.boundary
  rw [Cursor.past_past] at hx
  have hrun := run_parenthesized (r := Grammar.upTo long (m + 1)) hg hk hr' ht (begins hp _) hx
  have hprimary : (primary (Grammar.upTo long (m + 1))).run c =
      some (.value (.mk .parenthesized c.offset (c.offset + (parenthesized g p k).text.length) [x]),
        c.past (parenthesized g p k).text.length) := by
    rw [primary_parenthesis hr' hcast, run_bind_some hrun]
    rfl
  have hend : (c.past (parenthesized g p k).text.length).rest = u := Cursor.past_rest_append hr
  have hcovers : (Node.mk .parenthesized c.offset (c.offset + (parenthesized g p k).text.length)
      [x]).Covers source c.offset (parenthesized g p k).text := by
    have hplace := hin.covers (i := 0) .parenthesized [x] hr
    rwa [Nat.zero_add] at hplace
  have hbehind : x.start = c.offset + 1 + g.length := by
    rw [hshows.starts, Cursor.past_offset, Nat.add_assoc]
  refine ⟨.value (.mk .parenthesized c.offset (c.offset + (parenthesized g p k).text.length) [x]), ?_,
    .inl rfl, hcovers, .parenthesized hshows.spells hbehind hcovers, ?_,
    isBare_of rfl (by simpa [Operand.value, Node.children] using hshows.bare)⟩
  · unfold operandWith
    rw [run_bind_some hprimary, run_bind_some run_turns]
    exact run_extensionsWithin (c := c.past (parenthesized g p k).text.length) ht
      (by rw [hend]; exact hu.settled) (by simp [Operand.value]) _
  · simpa [Operand.value, OperatorTree.ofNode, tree] using hshows.tree

/-- A sign behind which its operand is read. -/
theorem readsAsOperand_sign {op : UInt8} {g : Bytes} {p : Written} (hop : isSign op = true)
    (hg : IsGap g) (hp : p.Proper) (hunit : p.isUnit = true) (hglue : glues op g p = false)
    (h : p.ReadsAsOperand) : (sign op g p).ReadsAsOperand := by
  intro long n source c u hn hin ht hr hu
  have hlen : (sign op g p).text.length = 1 + g.length + p.text.length := by
    simp only [text, List.length_cons, List.length_append]
    omega
  obtain ⟨m, rfl⟩ : ∃ m, n = m + 1 := ⟨n - 1, by omega⟩
  have hr' : c.rest = op :: (g ++ (p.text ++ u)) := by simp [hr, text]
  have h1 : (c.past (1 + g.length)).rest = p.text ++ u := by
    rw [← Cursor.past_past]
    exact Cursor.past_rest_append (by simp [hr'])
  obtain ⟨o, hrun, hext, hshows⟩ := h (n := m) (by omega) (hin.past _) ht h1 hu
  have hskip : (operandWith (Grammar.upTo long m)).run (c.past 1) =
      some (o, c.past (sign op g p).text.length) := by
    rw [run_operandWith_gap _ (k := g.length) (by
        rw [Cursor.past_rest, hr']
        exact hg.gapsBeforeAttributes (begins hp u)) (by
        rw [Cursor.past_past, h1]
        exact begins hp u), Cursor.past_past, hrun, Cursor.past_past, hlen]
  have hend : (c.past (sign op g p).text.length).rest = u := Cursor.past_rest_append hr
  have hplace : o.extent ≠ .place := by rcases hext with h | h <;> simp [h]
  have hpattern : o.extent ≠ .pattern := by rcases hext with h | h <;> simp [h]
  have hsigned : (signedOperand (Grammar.upTo long (m + 1))).run (c.past 1) =
      some (o.node, c.past (sign op g p).text.length) := by
    unfold signedOperand
    rw [run_bind_some (r := (Grammar.upTo long (m + 1)).operand) hskip,
      run_completed (c := c.past (sign op g p).text.length) ht (by rw [hend]; exact hu.settled) hplace
        hpattern]
  have hprimary := primary_sign hr' hop (fun h' => head?_ne_sign h' hg hp hunit hglue u) hsigned
  have hcovers : (Node.mk .unaryOperation c.offset (c.offset + (sign op g p).text.length)
      [o.node]).Covers source c.offset (sign op g p).text := by
    have hplace := hin.covers (i := 0) .unaryOperation [o.node] hr
    rwa [Nat.zero_add] at hplace
  have hbehind : o.node.start = c.offset + 1 + g.length := by
    rw [hshows.starts, Cursor.past_offset, Nat.add_assoc]
  refine ⟨.closed .unary (.mk .unaryOperation c.offset (c.offset + (sign op g p).text.length) [o.node]),
    ?_, .inr rfl, hcovers, .sign hshows.spells hbehind hcovers, ?_,
    isBare_of rfl (by simpa [Operand.closed, Node.children] using hshows.bare)⟩
  · unfold operandWith
    rw [run_bind_some hprimary, run_bind_some run_turns]
    rfl
  · have hfirst : (source.drop c.offset).headD 0 = op := by rw [← hin.rest, hr']; rfl
    simp only [Operand.closed, OperatorTree.ofNode, hfirst, tree, hshows.tree]

/-- Operators of one strength group to one side. -/
theorem leftLeast_le_strength {o o' : BinaryOperator} (ho : o ∈ operators) (ho' : o' ∈ operators)
    (h : o.leftLeast ≤ o'.strength) : o.strength < o'.rightLeast := by
  have hall : ∀ o ∈ operators, ∀ o' ∈ operators, o.leftLeast ≤ o'.strength →
      o.strength < o'.rightLeast := by decide
  exact hall o ho o' ho' h

theorem strength_lt {o : BinaryOperator} (ho : o ∈ operators) : o.strength < 19 := by
  have hall : ∀ o ∈ operators, o.strength < 19 := by decide
  exact hall o ho

theorem strength_lt_closing {o : BinaryOperator} {l : Written} (ho : o ∈ operators) (hl : l.Proper)
    (h : o.leftLeast ≤ l.strength .grammar) : o.strength < l.closing := by
  cases l with
  | binary m l r => exact leftLeast_le_strength ho hl.1.operator h
  | _ => exact strength_lt ho

/-- What no operator reaches into as the grammar reads is an operand on its own. -/
theorem isUnit_of_le {p : Written} (hp : p.Proper) (h : Table.grammar.signs ≤ p.strength .grammar) :
    p.isUnit = true := by
  cases p with
  | binary m l r => exact absurd (strength_lt hp.1.operator) (Nat.not_lt_of_le h)
  | _ => rfl

/-- An expression behind a gap, one level further down. -/
theorem ReadsInFront.expression_behind {p : Written} (h : p.ReadsInFront) (hp : p.Proper) {long : Bool} {n : Nat}
    {source g : Bytes} {c : Cursor} {u : Bytes} {least : Nat} (hg : IsGap g) (hn : p.text.length ≤ n)
    (hin : c.In source) (ht : c.tagEnds = false) (hr : c.rest = g ++ (p.text ++ u))
    (hleast : least ≤ p.strength .grammar) (hends : Ends p.last u) (hloose : BindsLess least u) :
    ∃ node, ((Grammar.upTo long (n + 1)).expression least).run c =
      some (node, c.past (g.length + p.text.length)) ∧ node.Shows source (c.offset + g.length) p := by
  have hr' : (c.past g.length).rest = p.text ++ u := Cursor.past_rest_append hr
  obtain ⟨node, hrun, hshows⟩ := h.expressionUpTo hn (hin.past _) ht hr' hleast hends hloose
  have hgap : gapsBeforeAttributes c.rest = g.length := by
    rw [hr, hg.gapsBeforeAttributes (begins hp u)]
  have hskip := run_expressionWith_gap (Grammar.upTo long n) least hgap (by
    rw [hr']
    exact begins hp u)
  rw [hrun, Cursor.past_past] at hskip
  exact ⟨node, hskip, hshows⟩

section
variable {m : OperatorMark} {l r : Written}

/-- A left operand is read up to its operator, and the right operand is expected behind it. -/
theorem ReadsInFront.operator (h : l.ReadsInFront) (hp : (binary m l r).Proper)
    (hleft : m.operator.leftLeast ≤ l.strength .grammar) {long : Bool} {n : Nat}
    {source : Bytes} {c : Cursor} {u : Bytes} {least : Nat} (hn : l.text.length ≤ n)
    (hin : c.In source) (ht : c.tagEnds = false)
    (hr : c.rest = l.text ++ (m.before ++ (m.sign ++ (m.after ++ (r.text ++ u)))))
    (hleast : least ≤ m.operator.strength) :
    ∃ left fuel, c.size + 1 ≤ fuel + (l.text.length + 1) ∧ left.Shows source c.offset l ∧
      (Php.expressionWith (Grammar.upTo long n) least).run c = (do
        let right ← (Grammar.upTo long n).expression m.operator.rightLeast
        operationsWithin (Grammar.upTo long n) least fuel (.mk .binaryOperation left.start right.stop
          [left, .mk .operator ((c.past l.text.length).offset + m.before.length)
            ((c.past l.text.length).offset + (m.before.length + m.sign.length)) [], right]) :
              Reader Node).run ((c.past l.text.length).past (m.before.length + m.sign.length)) := by
  obtain ⟨hfits, hl, hrp⟩ := hp
  have hne := hrp.text_ne_nil
  have hleast' : least ≤ l.strength .grammar := by
    have hle : m.operator.strength ≤ m.operator.leftLeast := by
      unfold BinaryOperator.leftLeast
      split <;> omega
    exact Nat.le_trans hleast (Nat.le_trans hle hleft)
  obtain ⟨left, fuel, hfuel, hshows, hrun⟩ := h hn hin ht hr hleast' (hfits.ends hne u)
    (hfits.bindsLess hne (strength_lt_closing hfits.operator hl hleft) u)
  obtain ⟨fuel, rfl⟩ : ∃ f, fuel = f + 1 := by
    have hfit := hin.fits
    rw [hr, List.length_append] at hfit
    exact ⟨fuel - 1, by omega⟩
  exact ⟨left, fuel, by omega, hshows, hrun.trans (run_operationsWithin_operator
    (c := c.past l.text.length) hfits hne (Cursor.past_rest_append hr) hleast)⟩

theorem readsInFront_binary (hp : (binary m l r).Proper)
    (hleft : m.operator.leftLeast ≤ l.strength .grammar)
    (hright : m.operator.rightLeast ≤ r.strength .grammar) (hlr : l.ReadsInFront)
    (hrr : r.ReadsInFront) : (binary m l r).ReadsInFront := by
  intro long n source c u least hn hin ht hrest hleast hends hloose
  have hlen : (binary m l r).text.length =
      l.text.length + ((m.before.length + m.sign.length) + (m.after.length + r.text.length)) := by
    simp only [text, List.length_append]
    omega
  have hsplit : c.rest = l.text ++ (m.before ++ (m.sign ++ (m.after ++ (r.text ++ u)))) := by
    simp [hrest, text]
  have hsign : 0 < m.sign.length := List.length_pos_iff.2 hp.1.sign_ne_nil
  obtain ⟨n, rfl⟩ : ∃ k, n = k + 1 := ⟨n - 1, by omega⟩
  obtain ⟨left, fuel, hfuel, hleftShows, hleftRun⟩ := hlr.operator hp hleft (n := n + 1)
    (by omega) hin ht hsplit hleast
  have hbehind : (c.past l.text.length).rest = m.before ++ (m.sign ++ (m.after ++ (r.text ++ u))) :=
    Cursor.past_rest_append hsplit
  have hin' := hin.past l.text.length
  have hoffset : (c.past l.text.length).offset = c.offset + l.text.length := rfl
  have htd : (c.past l.text.length).tagEnds = false := ht
  generalize hd : c.past l.text.length = d at *
  have hgap : (d.past (m.before.length + m.sign.length)).rest = m.after ++ (r.text ++ u) := by
    rw [← List.length_append]
    exact Cursor.past_rest_append (by rw [hbehind, List.append_assoc])
  obtain ⟨right, hrightRun, hrightShows⟩ := hrr.expression_behind hp.2.2 hp.1.after (n := n) (by omega)
    (hin'.past _) htd hgap hright hends hloose
  have hop : (Node.mk .operator (d.offset + m.before.length)
      (d.offset + (m.before.length + m.sign.length)) []).Covers source (d.offset + m.before.length)
        m.sign :=
    hin'.covers .operator [] (by rw [hbehind, List.drop_left])
  have hfirst : left.stop = d.offset := by rw [hleftShows.stops, hoffset]
  have hlast : right.stop = c.offset + (binary m l r).text.length := by
    rw [hrightShows.stops, Cursor.past_offset, hoffset, hlen]
    omega
  have hcovers : (Node.mk .binaryOperation left.start right.stop
      [left, .mk .operator (d.offset + m.before.length)
        (d.offset + (m.before.length + m.sign.length)) [], right]).Covers source c.offset
        (binary m l r).text := by
    have hplace := hin.covers (i := 0) .binaryOperation [left, .mk .operator (d.offset + m.before.length)
      (d.offset + (m.before.length + m.sign.length)) [], right] hrest
    rw [Nat.zero_add, ← hlast, Nat.add_zero] at hplace
    rwa [hleftShows.starts]
  refine ⟨.mk .binaryOperation left.start right.stop
    [left, .mk .operator (d.offset + m.before.length)
      (d.offset + (m.before.length + m.sign.length)) [], right], fuel, by omega,
    ⟨hcovers, .binary hleftShows.spells hrightShows.spells rfl (hfirst ▸ hop) ?_
      (hleftShows.starts ▸ hcovers), ?_, isBare_of rfl ?_⟩,
    hleftRun.trans ((run_bind_some hrightRun).trans ?_)⟩
  · exact hrightShows.starts
  · simp only [OperatorTree.ofNode, hop.bytes, hp.1.spelled, hleftShows.tree, hrightShows.tree, tree]
  · have hsignBare : (Node.mk .operator (d.offset + m.before.length)
        (d.offset + (m.before.length + m.sign.length)) []).IsBare := rfl
    simpa [Node.children] using ⟨hleftShows.bare, hsignBare, hrightShows.bare⟩
  · rw [← hd, Cursor.past_past, Cursor.past_past, hlen]

end

/-- What is grouped is read as the tree that it was written from, wherever it stands. -/
theorem reads : ∀ {p : Written}, p.Proper → p.Grouped →
    (p.isUnit = true → p.ReadsAsOperand) ∧ p.ReadsInFront
  | atom _, hp, _ =>
    have h := readsAsOperand_atom hp
    ⟨fun _ => h, h.readsInFront⟩
  | parenthesized _ p _, hp, hg =>
    have h := readsAsOperand_parenthesized hp.1 hp.2.1 hp.2.2 (reads (p := p) hp.2.1 hg).2
    ⟨fun _ => h, h.readsInFront⟩
  | sign _ _ _, hp, hg =>
    have hunit := isUnit_of_le hp.2.2 hg.2.1
    have h := readsAsOperand_sign hp.1 hp.2.1 hp.2.2 hunit hg.2.2 ((reads hp.2.2 hg.1).1 hunit)
    ⟨fun _ => h, h.readsInFront⟩
  | binary _ _ _, hp, hg =>
    ⟨fun h => (by cases h), readsInFront_binary hp hg.2.2.1 hg.2.2.2 (reads hp.2.1 hg.1).2
      (reads hp.2.2 hg.2.1).2⟩

/-- A text that is grouped throughout is read as a node that is put together as it is. -/
theorem exists_expressionOf? {p : Written} (hp : p.Proper) (hg : p.Grouped) :
    ∃ node, expressionOf? p.text = some node ∧ node.Shows p.text 0 p := by
  obtain ⟨node, hrun, hshows⟩ := (reads hp hg).2.expressionWith (Nat.le_refl _)
    (c := { rest := p.text, offset := 0, size := p.text.length }) (u := []) ⟨rfl, rfl⟩ rfl
    (by simp) (Nat.zero_le (p.strength .grammar)) (closes_nil _)
  have hread : ((Grammar.upTo true (p.text.length + 1)).expression Strength.any).run
      { rest := p.text, offset := 0, size := p.text.length } = _ := hrun
  refine ⟨node, ?_, hshows⟩
  simp only [expressionOf?, hread, Cursor.past, List.drop_length, List.isEmpty_nil, if_true]

/-- A text that is grouped throughout is read as the tree that it was written from. -/
theorem readTree?_text {p : Written} (hp : p.Proper) (hg : p.Grouped) :
    readTree? p.text = some p.tree := by
  obtain ⟨node, hnode, hshows⟩ := exists_expressionOf? hp hg
  rw [readTree?, hnode, Option.map_some, hshows.tree]

end Written

end FacadeStubs.Php
