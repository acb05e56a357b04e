import FacadeStubs.Php.Parse
import FacadeStubs.Proofs.Text.Utf8

/-!
# Running readers

One equation for each primitive reader: what it gives at a cursor, and the cursor behind it. A reader
that takes `n` bytes leaves `Cursor.past n`. The equations hold where no closing tag ends a
statement (`tagEnds` is not set) or say what they need in place of that.

The lemmas about `manyWithin` and `many` turn the reading of single entries into the reading of a
row of them.
-/
namespace FacadeStubs.Php

open Lexical

/-- The cursor `n` bytes further on. -/
def Cursor.past (c : Cursor) (n : Nat) : Cursor :=
  { c with rest := c.rest.drop n, offset := c.offset + n }

namespace Cursor

@[simp] theorem past_rest (c : Cursor) (n : Nat) : (c.past n).rest = c.rest.drop n := rfl

@[simp] theorem past_offset (c : Cursor) (n : Nat) : (c.past n).offset = c.offset + n := rfl

@[simp] theorem past_size (c : Cursor) (n : Nat) : (c.past n).size = c.size := rfl

@[simp] theorem past_tagEnds (c : Cursor) (n : Nat) : (c.past n).tagEnds = c.tagEnds := rfl

@[simp] theorem past_zero (c : Cursor) : c.past 0 = c := rfl

@[simp] theorem past_past (c : Cursor) (n m : Nat) : (c.past n).past m = c.past (n + m) := by
  simp [past, List.drop_drop, Nat.add_assoc]

theorem past_rest_append {c : Cursor} {t u : Bytes} (h : c.rest = t ++ u) :
    (c.past t.length).rest = u := by
  simp [h]

end Cursor

/-- A cursor at its place in a source. -/
structure Cursor.In (c : Cursor) (source : Bytes) : Prop where
  rest : c.rest = source.drop c.offset
  size : c.size = source.length

namespace Cursor.In

variable {c : Cursor} {source : Bytes}

theorem past (h : c.In source) (n : Nat) : (c.past n).In source :=
  ⟨by simp [h.rest], h.size⟩

theorem fits (h : c.In source) : c.rest.length ≤ c.size := by
  rw [h.rest, h.size]
  simp

theorem bytes (h : c.In source) (kind : Kind) (i j : Nat) (children : List Node) :
    Node.bytes source (.mk kind (c.offset + i) (c.offset + (i + j)) children) =
      (c.rest.drop i).take j := by
  simp only [Node.bytes, Node.start, Node.stop, h.rest, List.drop_drop]
  congr 1
  omega

end Cursor.In

theorem Node.text_of_bytes {source : Bytes} {n : Node} {s : String}
    (h : n.bytes source = Utf8.bytesOf s) : n.text source = s := by
  rw [Node.text, h, Utf8.bytesOf, Utf8.decode?_encode]
  exact String.ofList_toList

namespace Reader

variable {α β : Type} {c : Cursor}

/-! ## Control -/

theorem run_bind_some {r : Reader α} {f : α → Reader β} {a : α} {d : Cursor}
    (h : r.run c = some (a, d)) : (r >>= f).run c = (f a).run d := by
  rw [StateT.run_bind, h]; rfl

theorem run_bind_none {r : Reader α} {f : α → Reader β} (h : r.run c = none) :
    (r >>= f).run c = none := by
  rw [StateT.run_bind, h]; rfl

theorem run_orElse {r s : Reader α} : (r <|> s).run c = (r.run c).or (s.run c) := by
  show (r.run c <|> s.run c) = _
  cases r.run c <;> rfl

theorem run_map {r : Reader α} {f : α → β} :
    (f <$> r).run c = (r.run c).map fun p => (f p.1, p.2) := by
  show (r.run c).bind _ = _
  cases r.run c <;> rfl

theorem run_maybe {r : Reader α} : (maybe r).run c =
    some (match r.run c with | some (a, d) => (some a, d) | none => (none, c)) := by
  unfold maybe
  rw [run_orElse, run_map]
  cases r.run c <;> rfl

theorem run_maybe_some {r : Reader α} {a : α} {d : Cursor} (h : r.run c = some (a, d)) :
    (maybe r).run c = some (some a, d) := by
  rw [run_maybe, h]

theorem run_maybe_none {r : Reader α} (h : r.run c = none) :
    (maybe r).run c = some (none, c) := by
  rw [run_maybe, h]

theorem run_maybeNode_none {r : Reader Node} (h : r.run c = none) :
    (maybeNode r).run c = some ([], c) := by
  unfold maybeNode
  rw [run_orElse, run_map, h]; rfl

theorem run_maybeNode_some {r : Reader Node} {n : Node} {d : Cursor}
    (h : r.run c = some (n, d)) : (maybeNode r).run c = some ([n], d) := by
  unfold maybeNode
  rw [run_orElse, run_map, h]; rfl

/-! ## The cursor -/

theorem run_get : (get : Reader Cursor).run c = some (c, c) := rfl

theorem run_modify (f : Cursor → Cursor) : (modify f : Reader Unit).run c = some ((), f c) := rfl

theorem run_advance (n : Nat) : (advance n).run c = some ((), c.past n) := rfl

theorem run_remaining : remaining.run c = some (c.rest, c) := rfl

theorem run_position : position.run c = some (c.offset, c) := rfl

theorem run_turns : turns.run c = some (c.size + 1, c) := rfl

theorem run_gap : gap.run c = some ((), c.past (gaps c.rest)) := rfl

theorem run_openGap : openGap.run c = some ((), c.past (gapsBeforeAttributes c.rest)) := rfl

theorem run_ahead : ahead.run c = some (c.rest.drop (gaps c.rest), c) := rfl

theorem run_openAhead :
    openAhead.run c = some (c.rest.drop (gapsBeforeAttributes c.rest), c) := rfl

theorem run_nextIs (text : String) :
    (nextIs text).run c = some (beginsWith text (c.rest.drop (gaps c.rest)), c) := rfl

theorem run_nextWord : nextWord.run c = some (wordAt (c.rest.drop (gaps c.rest)), c) := rfl

theorem run_behindOperand (ht : c.tagEnds = false) :
    behindOperand.run c = some (c.rest.drop (gaps c.rest), c) := by
  unfold behindOperand
  rw [run_bind_some run_remaining]
  show (if c.tagEnds = true then _ else _ : Reader Bytes).run c = _
  rw [ht]; rfl

theorem run_thenIs (ht : c.tagEnds = false) (text : String) :
    (thenIs text).run c = some (beginsWith text (c.rest.drop (gaps c.rest)), c) := by
  unfold thenIs
  rw [run_bind_some (run_behindOperand ht)]; rfl

theorem run_require_true {b : Bool} (h : b = true) : (require b).run c = some ((), c) := by
  subst h; rfl

theorem run_require_false {b : Bool} (h : b = false) : (require b).run c = none := by
  subst h; rfl

/-! ## Tokens and nodes -/

theorem run_symbol {text : String} {k : Nat} (hg : gaps c.rest = k)
    (hb : beginsWith text (c.rest.drop k) = true) :
    (symbol text).run c = some ((), c.past (k + text.length)) := by
  have hb' : beginsWith text (c.past k).rest = true := hb
  unfold symbol
  rw [run_bind_some run_gap, hg, run_bind_some run_remaining, run_bind_some (run_require_true hb'),
    run_advance, Cursor.past_past]

theorem run_symbol_none {text : String} (hb : beginsWith text (c.rest.drop (gaps c.rest)) = false) :
    (symbol text).run c = none := by
  unfold symbol
  rw [run_bind_some run_gap, run_bind_some run_remaining]
  exact run_bind_none (run_require_false hb)

theorem run_keyword {word : String} {k : Nat} (hg : gaps c.rest = k)
    (hw : wordAt (c.rest.drop k) = word) :
    (keyword word).run c = some ((), c.past (k + nameLength (c.rest.drop k))) := by
  unfold keyword
  rw [run_bind_some run_gap, hg, run_bind_some run_remaining,
    run_bind_some (run_require_true (by simpa using hw)), run_advance, Cursor.past_past]
  rfl

theorem run_nodeOf {kind : Kind} {r : Reader (List Node)} {k : Nat} {cs : List Node} {d : Cursor}
    (hg : gaps c.rest = k) (hr : r.run (c.past k) = some (cs, d)) :
    (nodeOf kind r).run c = some (.mk kind (c.offset + k) d.offset cs, d) := by
  unfold nodeOf
  rw [run_bind_some run_gap, hg, run_bind_some run_position, run_bind_some hr,
    run_bind_some run_position]
  rfl

theorem run_nodeOf_none {kind : Kind} {r : Reader (List Node)} {k : Nat} (hg : gaps c.rest = k)
    (hr : r.run (c.past k) = none) : (nodeOf kind r).run c = none := by
  unfold nodeOf
  rw [run_bind_some run_gap, hg, run_bind_some run_position]
  exact run_bind_none hr

theorem run_leaf {kind : Kind} {token : Reader Unit} {k : Nat} {d : Cursor}
    (hg : gaps c.rest = k) (hr : token.run (c.past k) = some ((), d)) :
    (leaf kind token).run c = some (.mk kind (c.offset + k) d.offset [], d) :=
  run_nodeOf hg (by rw [run_bind_some hr]; rfl)

theorem run_nodeFrom (kind : Kind) (start : Nat) (children : List Node) :
    (nodeFrom kind start children).run c = some (.mk kind start c.offset children, c) := rfl

theorem run_identifier {k n : Nat} (hg : gaps c.rest = k) (hn : nameLength (c.rest.drop k) = n)
    (h0 : n ≠ 0) :
    identifier.run c = some (.mk .name (c.offset + k) (c.offset + k + n) [], c.past (k + n)) := by
  unfold identifier
  have htoken : (do
      let n := nameLength (← remaining)
      require (n != 0)
      advance n : Reader Unit).run (c.past k) = some ((), c.past (k + n)) := by
    rw [run_bind_some run_remaining]
    simp only [Cursor.past_rest, hn]
    rw [run_bind_some (run_require_true (by simpa using h0)), run_advance, Cursor.past_past]
  rw [run_leaf hg htoken, Cursor.past_offset, Nat.add_assoc]

theorem run_identifier_none (hn : nameLength (c.rest.drop (gaps c.rest)) = 0) :
    identifier.run c = none := by
  unfold identifier leaf
  refine run_nodeOf_none rfl (run_bind_none ?_)
  rw [run_bind_some run_remaining]
  simp only [Cursor.past_rest, hn]
  exact run_bind_none (run_require_false rfl)

/-! ## Ends of statements -/

theorem run_withTagEnds {r : Reader α} {b : Bool} {a : α} {d : Cursor}
    (h : r.run { c with tagEnds := b } = some (a, d)) :
    (withTagEnds b r).run c = some (a, { d with tagEnds := c.tagEnds }) := by
  unfold withTagEnds
  rw [run_bind_some run_get, run_bind_some (run_modify _), run_bind_some h]
  rfl

theorem run_withTagEnds_congr {r s : Reader α} {b : Bool}
    (h : r.run { c with tagEnds := b } = s.run { c with tagEnds := b }) :
    (withTagEnds b r).run c = (withTagEnds b s).run c := by
  unfold withTagEnds
  rw [run_bind_some run_get, run_bind_some (run_modify _), run_bind_some run_get,
    run_bind_some (run_modify _), StateT.run_bind, StateT.run_bind, h]

theorem run_inner {r : Reader α} {a : α} {n : Nat} (ht : c.tagEnds = false)
    (h : r.run c = some (a, c.past n)) : (inner r).run c = some (a, c.past n) := by
  have hc : { c with tagEnds := false } = c := by rw [← ht]
  unfold inner
  rw [run_withTagEnds (b := false) (by rw [hc]; exact h)]
  rfl

theorem run_inner_none {r : Reader α} (ht : c.tagEnds = false) (h : r.run c = none) :
    (inner r).run c = none := by
  have hc : { c with tagEnds := false } = c := by rw [← ht]
  unfold inner withTagEnds
  rw [run_bind_some run_get, run_bind_some (run_modify _), hc]
  exact run_bind_none h

/-- Something between two signs of a byte each: the gap and the sign, the inside, the gap and the
sign. -/
theorem run_between (opening closing : String) {r : Reader α} {k n m : Nat} {a : α}
    (h1 : opening.length = 1) (h2 : closing.length = 1) (ht : c.tagEnds = false)
    (hg : gaps c.rest = k) (ho : beginsWith opening (c.rest.drop k) = true)
    (hr : r.run (c.past (k + 1)) = some (a, c.past (k + 1 + n)))
    (hg' : gaps (c.rest.drop (k + 1 + n)) = m)
    (hc : beginsWith closing (c.rest.drop (k + 1 + n + m)) = true) :
    (between opening closing r).run c = some (a, c.past (k + 1 + n + (m + 1))) := by
  have hr' : r.run (c.past (k + 1)) = some (a, (c.past (k + 1)).past n) := by
    rw [Cursor.past_past]; exact hr
  unfold between
  rw [run_bind_some (run_symbol hg ho), h1, run_bind_some (run_inner (by simpa using ht) hr'),
    Cursor.past_past]
  rw [run_bind_some (run_symbol (k := m) hg' (by simpa [List.drop_drop] using hc)), h2,
    Cursor.past_past]
  rfl

/-! ## Rows -/

theorem run_manyWithin_none {r : Reader α} (h : r.run c = none) (fuel : Nat) :
    (manyWithin r fuel).run c = some ([], c) := by
  cases fuel with
  | zero => rfl
  | succ fuel =>
    unfold manyWithin
    rw [run_orElse, run_bind_none h]; rfl

theorem run_manyWithin_cons {r : Reader α} {a : α} {as : List α} {d e : Cursor} {fuel : Nat}
    (h : r.run c = some (a, d)) (hs : (manyWithin r fuel).run d = some (as, e)) :
    (manyWithin r (fuel + 1)).run c = some (a :: as, e) := by
  rw [manyWithin, run_orElse, run_bind_some h, run_bind_some hs]; rfl

theorem run_many_none {r : Reader α} (h : r.run c = none) : (many r).run c = some ([], c) :=
  run_manyWithin_none h _

end Reader

end FacadeStubs.Php
