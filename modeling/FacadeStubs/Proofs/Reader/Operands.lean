import FacadeStubs.Analysis
import FacadeStubs.Proofs.Reader.Tokens

/-!
# Reading operands

What the grammar reads where an operand is expected, form by form: numbers, strings, words, absolute
names with a member behind them, parentheses and signs. An operand is read up to what follows it;
`Settled` says of the bytes behind it that they go on no operand.

Results:
* `run_completed`, `run_extensionsWithin`: nothing is added to an operand that settled bytes follow.
* `primary_number`, `primary_plainString`, `primary_nulString`, `primary_word`, `primary_absolute`,
  `primary_parenthesis`, `primary_sign`: the first form of an operand by its first byte.
-/
namespace FacadeStubs.Php

open Lexical Reader Analysis

/-! ## Nodes that declare nothing -/

/-- A node in which nothing is declared. -/
def Node.IsBare (n : Node) : Prop := landmarks n = []

/-- What declares nothing itself declares what its children do. -/
theorem landmarks_children {n : Node} (h : isLandmark n.kind = false) :
    landmarks n = landmarksIn n.children := by
  cases n
  rw [landmarks]
  exact if_neg (Bool.eq_false_iff.1 h)

theorem landmarksIn_bare {ns : List Node} (h : ∀ n ∈ ns, n.IsBare) : landmarksIn ns = [] := by
  induction ns with
  | nil => rfl
  | cons n ns ih =>
    have hn : landmarks n = [] := h n (by simp)
    rw [landmarksIn, hn, ih fun m hm => h m (by simp [hm])]
    rfl

theorem isBare_of {n : Node} (hk : isLandmark n.kind = false) (h : ∀ m ∈ n.children, m.IsBare) :
    n.IsBare :=
  (landmarks_children hk).trans (landmarksIn_bare h)

/-! ## What follows an operand -/

/-- Bytes from the next token on that go on no operand: neither a member, an element or arguments
nor a further part of a name, no test for a class, and no condition. -/
structure Settled (w : Bytes) : Prop where
  arrow : arrowAt? w = none
  colons : beginsWith "::" w = false
  bracket : beginsWith "[" w = false
  parenthesis : beginsWith "(" w = false
  backslash : beginsWith "\\" w = false
  test : wordAt w ≠ "instanceof"
  condition : atCondition w = false

/-- Bytes behind an operand that end it. -/
structure Follows (u : Bytes) : Prop where
  boundary : Boundary u
  point : u.head? ≠ some 46
  settled : Settled (u.drop (gaps u))

/-- Whether the last byte of a text closes it, so that a name may follow it at once. -/
def isClosed (t : Bytes) : Bool := t.getLast?.any fun b => b == 34 || b == 39 || b == 41 || b == 93

/-- Whether a text begins like a number, so that a point behind it would be a part of it. -/
def isNumeral (t : Bytes) : Bool := t.head?.any fun b => isDigit b || b == 46

/-- Bytes behind an operand that is written as a text and ends in front of them. -/
structure Ends (t u : Bytes) : Prop where
  boundary : isClosed t = false → Boundary u
  point : isNumeral t = true → u.head? ≠ some 46
  settled : Settled (u.drop (gaps u))

/-- Whether a byte may follow an operand that is written as a text. -/
def mayFollow (t : Bytes) (b : UInt8) : Bool :=
  (isClosed t || !isLabelByte b) && !(isNumeral t && b == 46)

theorem Follows.ends {u : Bytes} (h : Follows u) (t : Bytes) : Ends t u :=
  ⟨fun _ => h.boundary, fun _ => h.point, h.settled⟩

theorem isClosed_name {s : Bytes} (hs : IsName s) (t : Bytes) : isClosed (t ++ s) = false := by
  have hlast : (t ++ s).getLast? = some (s.getLast hs.1) := by
    rw [List.getLast?_append, List.getLast?_eq_some_getLast hs.1]
    rfl
  have hb : isLabelByte (s.getLast hs.1) = true := isLabelByte_of_mem hs _ (List.getLast_mem hs.1)
  rw [isClosed, hlast, Option.any_some]
  refine Bool.eq_false_iff.2 fun hcloses => ?_
  simp only [Bool.or_eq_true, beq_iff_eq] at hcloses
  rcases hcloses with ((h | h) | h) | h <;>
  · rw [h] at hb
    cases hb

theorem settled_nil : Settled [] := ⟨rfl, rfl, rfl, rfl, rfl, by decide, rfl⟩

theorem follows_nil : Follows [] := ⟨boundary_nil, by simp, settled_nil⟩

/-- The bytes that close or part lists. -/
def isCloser (b : UInt8) : Bool := b == 41 || b == 44 || b == 59 || b == 93

theorem follows_closer {b : UInt8} {u : Bytes} (h : isCloser b = true) : Follows (b :: u) := by
  have hb : b = 41 ∨ b = 44 ∨ b = 59 ∨ b = 93 := by simpa [isCloser, or_assoc] using h
  have hlabel : isLabelByte b = false := by rcases hb with rfl | rfl | rfl | rfl <;> rfl
  have hgap : gaps (b :: u) = 0 :=
    (beginsToken_solid (by rcases hb with rfl | rfl | rfl | rfl <;> rfl)).gaps
  have hword : wordAt (b :: u) ≠ "instanceof" := by
    rw [wordAt_boundary (boundary_cons hlabel)]; decide
  refine ⟨boundary_cons hlabel, ?_, ?_⟩
  · rcases hb with rfl | rfl | rfl | rfl <;> simp
  · rw [hgap, List.drop_zero]
    refine ⟨?_, ?_, ?_, ?_, ?_, hword, ?_⟩ <;> rcases hb with rfl | rfl | rfl | rfl <;> rfl

section
variable {g : Grammar} {o : Operand} {c : Cursor}

theorem run_extension_none (ht : c.tagEnds = false) (hs : Settled (c.rest.drop (gaps c.rest)))
    (ho : o.extent ≠ .place) : (extension g o).run c = none := by
  unfold extension
  rw [run_bind_some (run_behindOperand ht)]
  simp only [hs.arrow, hs.colons, hs.bracket, hs.parenthesis]
  exact run_bind_none (run_require_false (by simp [ho]))

theorem run_extensionsWithin (ht : c.tagEnds = false) (hs : Settled (c.rest.drop (gaps c.rest)))
    (ho : o.extent ≠ .place) : ∀ fuel, (extensionsWithin g fuel o).run c = some (o, c)
  | 0 => rfl
  | fuel + 1 => by
    unfold extensionsWithin
    split
    · rfl
    · rw [run_bind_some (run_maybe_none (run_extension_none ht hs ho))]; rfl

/-- Nothing takes the whole of an operand that is no place. -/
theorem run_completed (ht : c.tagEnds = false) (hs : Settled (c.rest.drop (gaps c.rest)))
    (hp : o.extent ≠ .place) (hq : o.extent ≠ .pattern) :
    (completed g o).run c = some (o.node, c) := by
  unfold completed
  rw [run_bind_some (run_behindOperand ht)]
  simp [hp, hq, hs.test]

end

/-! ## The first form of an operand -/

section
variable {g : Grammar} {c : Cursor} {a : UInt8} {rest : Bytes}

/-- Bytes that begin neither a number nor a string. -/
def beginsNoScalar (a : UInt8) : Bool :=
  !isDigit a && a != 46 && a != 95 && a != 69 && a != 101 && a != 39 && a != 34 && a != 60 &&
    a != 98 && a != 66

theorem atNumber_eq_false (h : beginsNoScalar a = true) : atNumber (a :: rest) = false := by
  simp only [beginsNoScalar, Bool.and_eq_true, Bool.not_eq_true', bne_iff_ne, ne_eq] at h
  obtain ⟨⟨⟨⟨⟨⟨⟨⟨⟨hd, hp⟩, hu⟩, hE⟩, he⟩, -⟩, -⟩, -⟩, -⟩, -⟩ := h
  have h48 : (a == 48) = false := beq_eq_false_of_class hd
  have hi : integerLength (a :: rest) = 0 := by
    simp [integerLength, h48, digitsLength, hd]
  have hg : digitGroups isDigit (a :: rest) = 0 := by
    cases rest <;> simp [digitGroups, hd, hu]
  have hf : floatLength (a :: rest) = 0 := by
    simp [floatLength, hg, hp, exponentLength, he, hE]
  simp [atNumber, hi, hf]

theorem atString_eq_false (h : beginsNoScalar a = true) : atString (a :: rest) = false := by
  simp only [beginsNoScalar, Bool.and_eq_true, bne_iff_ne, ne_eq] at h
  obtain ⟨⟨⟨⟨⟨-, hq⟩, hqq⟩, hl⟩, hb⟩, hB⟩ := h
  have hm : byteMark (a :: rest) = 0 := by
    cases rest <;> simp [byteMark, ascii, hb, hB]
  simp [atString, beginsWith, beginsWith.go, ascii, hm, Ne.symm hq, Ne.symm hqq, Ne.symm hl]

/-- A number is as long as it is by the longer of the two readings. -/
theorem primary_number (hr : c.rest = a :: rest) (ha : isDigit a = true ∨ a = 46) {n : Nat}
    (h0 : n ≠ 0) (hn : max (integerLength c.rest) (floatLength c.rest) = n) : (primary g).run c =
      some (.closed .primary (.mk
        (if integerLength c.rest < floatLength c.rest then .floatLiteral else .integerLiteral)
        c.offset (c.offset + n) []), c.past n) := by
  have htoken : BeginsToken c.rest := by
    rw [hr]
    exact beginsToken_solid (ha.elim isSolid_digit fun h => by rw [h]; rfl)
  have hgap := htoken.gaps
  have hname : nameLength c.rest = 0 := by
    rw [hr]
    rcases ha with hd | rfl
    · simp [nameLength, hd]
    · exact nameLength_boundary (boundary_cons rfl)
  have hat : atNumber c.rest = true := by simp [atNumber, hn, h0, hname]
  have hnumber : number.run c = some (.mk
      (if integerLength c.rest < floatLength c.rest then .floatLiteral else .integerLiteral)
      c.offset (c.offset + n) [], c.past n) := by
    unfold number
    rw [run_bind_some run_gap, hgap, Cursor.past_zero, run_bind_some run_remaining]
    by_cases hlt : floatLength c.rest > integerLength c.rest
    · simp only [hlt, if_true]
      have hn' : floatLength c.rest = n := by omega
      rw [run_leaf hgap (run_advance _), hn']
      rfl
    · simp only [hlt, if_false]
      have hn' : integerLength c.rest = n := by omega
      rw [run_bind_some (run_require_true (by simp [hn', h0])), run_leaf hgap (run_advance _), hn']
      rfl
  unfold primary
  rw [run_bind_some run_openGap, htoken.gapsBeforeAttributes, Cursor.past_zero, run_bind_some run_remaining]
  simp only [hat, if_true]
  rw [run_bind_some hnumber]
  rfl

theorem atNumber_quote (hq : a = 39 ∨ a = 34) : atNumber (a :: rest) = false := by
  have hg : digitGroups isDigit (a :: rest) = 0 := by
    rcases hq with rfl | rfl <;> cases rest <;> rfl
  rcases hq with rfl | rfl <;>
  simp [atNumber, integerLength, digitsLength, isDigit, floatLength, hg, exponentLength]

/-- Where a quote stands, a string of either kind is read. -/
theorem primary_quote (hr : c.rest = a :: rest) (hq : a = 39 ∨ a = 34) {node : Node} {d : Cursor}
    (h : (anyString g).run c = some (node, d)) :
    (primary g).run c = some (.value node, d) := by
  have htoken : BeginsToken c.rest := by
    rw [hr]
    exact beginsToken_solid (by rcases hq with rfl | rfl <;> rfl)
  have hat : atNumber c.rest = false := by rw [hr]; exact atNumber_quote hq
  have hstr : atString c.rest = true := by rw [hr]; rcases hq with rfl | rfl <;> rfl
  unfold primary
  rw [run_bind_some run_openGap, htoken.gapsBeforeAttributes, Cursor.past_zero, run_bind_some run_remaining]
  simp only [hat, hstr, if_true, Bool.false_eq_true, if_false]
  rw [run_bind_some h]
  rfl

theorem primary_plainString (hr : c.rest = 39 :: rest) {n : Nat}
    (hq : singleQuoted? rest = some n) : (primary g).run c =
      some (.value (.mk .plainString c.offset (c.offset + (n + 1)) []), c.past (n + 1)) := by
  refine primary_quote hr (.inl rfl) ?_
  have hgap : gaps c.rest = 0 := by rw [hr]; exact (beginsToken_solid rfl).gaps
  have hmark : byteMark c.rest = 0 := by rw [hr]; cases rest <;> rfl
  have hbegins : beginsWith "'" c.rest = true := by rw [hr]; rfl
  have hlong : beginsWith "<<<" c.rest = false := by rw [hr]; rfl
  have hrest : singleQuoted? (c.rest.drop 1) = some n := by rw [hr]; exact hq
  unfold anyString
  rw [run_bind_some run_ahead, hgap, List.drop_zero]
  simp only [hlong, hmark, List.drop_zero, hbegins, if_true, Bool.false_eq_true, if_false]
  unfold plainString
  refine run_leaf (d := c.past (n + 1)) hgap ?_
  rw [Cursor.past_zero, run_bind_some run_remaining]
  simp only [hmark, List.drop_zero, hbegins, Nat.zero_add, hrest]
  rw [run_bind_some (run_require_true rfl), run_advance, Nat.add_comm]

/-- The string of one NUL, written as an escape. -/
theorem primary_nulString (hr : c.rest = 34 :: 92 :: 48 :: 34 :: rest) (hsize : 1 ≤ c.size) :
    (primary g).run c =
      some (.value (.mk .encapsedString c.offset (c.offset + 4) []), c.past 4) := by
  refine primary_quote hr (.inr rfl) ?_
  have hgap : gaps c.rest = 0 := by rw [hr]; exact (beginsToken_solid rfl).gaps
  have hmark : byteMark c.rest = 0 := by rw [hr]; rfl
  have hlong : beginsWith "<<<" c.rest = false := by rw [hr]; rfl
  have hplain : beginsWith "'" c.rest = false := by rw [hr]; rfl
  have hquote : beginsWith "\"" c.rest = true := by rw [hr]; rfl
  unfold anyString
  rw [run_bind_some run_ahead, hgap, List.drop_zero]
  simp only [hlong, hmark, List.drop_zero, hplain, Bool.false_eq_true, if_false]
  unfold encapsedString
  refine run_nodeOf (d := c.past 4) hgap ?_
  rw [Cursor.past_zero, run_bind_some run_remaining]
  simp only [hmark, List.drop_zero, hquote, Nat.zero_add]
  rw [run_bind_some (run_require_true rfl), run_bind_some (run_advance 1), run_bind_some run_turns]
  obtain ⟨k, hk⟩ : ∃ k, (c.past 1).size + 1 = k + 2 := ⟨c.size - 1, by simp; omega⟩
  rw [hk, inside, run_bind_some run_remaining]
  have h1 : (c.past 1).rest = 92 :: 48 :: 34 :: rest := by simp [hr]
  have h3 : (c.past 3).rest = 34 :: rest := by simp [hr]
  have hesc : escapeLength (48 :: 34 :: rest) = 1 := by
    cases rest <;> rfl
  have htext : textLength? .quotes false (92 :: 48 :: 34 :: rest) = some 0 := by
    rw [textLength?.eq_def]
    simp [Enclosure.endsAt, ascii, hesc]
  have hemb : (embedded g).run (c.past 1) = some (([], false), c.past 3) := by
    unfold embedded
    rw [run_bind_some run_remaining, h1]
    simp only [show beginsWith "\\" (92 :: 48 :: 34 :: rest) = true from rfl, if_true,
      List.drop_succ_cons, List.drop_zero, hesc]
    rw [run_bind_some (run_advance _), Cursor.past_past]
    rfl
  have hend : (inside g .quotes (k + 1) false).run (c.past 3) = some ([], c.past 4) := by
    have hends : (34 :: rest).head?.any Enclosure.quotes.endsAt = true := rfl
    rw [inside, run_bind_some run_remaining, h3, if_pos hends, run_bind_some (run_advance 1),
      Cursor.past_past]
    rfl
  rw [h1]
  simp only [htext]
  rw [if_neg (by simp [Enclosure.endsAt, ascii]), run_bind_some hemb, run_bind_some hend]
  rfl

theorem primary_word (hr : c.rest = a :: rest) (ha : beginsNoScalar a = true)
    (hn : nameLength c.rest ≠ 0) : (primary g).run c = (wordOperand g c.rest).run c := by
  have htoken := beginsToken_name hn
  have hat : atNumber c.rest = false := by rw [hr]; exact atNumber_eq_false ha
  have hstr : atString c.rest = false := by rw [hr]; exact atString_eq_false ha
  unfold primary
  rw [run_bind_some run_openGap, htoken.gapsBeforeAttributes, Cursor.past_zero, run_bind_some run_remaining]
  simp [hat, hstr, hn]

theorem primary_absolute (hr : c.rest = 92 :: rest) {node : Node} {d : Cursor}
    (h : anyName.run c = some (node, d)) : (primary g).run c = some (.value node, d) := by
  have htoken : BeginsToken c.rest := by rw [hr]; exact beginsToken_solid rfl
  have hat : atNumber c.rest = false := by rw [hr]; exact atNumber_eq_false rfl
  have hstr : atString c.rest = false := by rw [hr]; exact atString_eq_false rfl
  have hn : nameLength c.rest = 0 := by rw [hr]; exact nameLength_boundary (boundary_cons rfl)
  unfold primary
  rw [run_bind_some run_openGap, htoken.gapsBeforeAttributes, Cursor.past_zero,
    run_bind_some run_remaining]
  simp only [hat, hstr, hn, bne_self_eq_false, Bool.false_eq_true, if_false]
  rw [hr]
  exact (run_bind_some h).trans rfl

/-- A parenthesis that begins no cast. -/
theorem primary_parenthesis (hr : c.rest = 40 :: rest) (hcast : atCast c.rest = false) :
    (primary g).run c = (do return .value (← parenthesized g) : Reader Operand).run c := by
  have htoken : BeginsToken c.rest := by rw [hr]; exact beginsToken_solid rfl
  have hat : atNumber c.rest = false := by rw [hr]; exact atNumber_eq_false rfl
  have hstr : atString c.rest = false := by rw [hr]; exact atString_eq_false rfl
  have hn : nameLength c.rest = 0 := by rw [hr]; exact nameLength_boundary (boundary_cons rfl)
  have hopens : beginsWith "(" c.rest = true := by rw [hr]; rfl
  have hdollar : beginsWith "$" c.rest = false := by rw [hr]; rfl
  unfold primary
  rw [run_bind_some run_openGap, htoken.gapsBeforeAttributes, Cursor.past_zero,
    run_bind_some run_remaining]
  simp only [hat, hstr, hn, hdollar, hcast, hopens, bne_self_eq_false, Bool.false_eq_true, if_false,
    if_true]

/-- The signs that stand in front of an operand. -/
def isSign (b : UInt8) : Bool := b == 43 || b == 45 || b == 33 || b == 126

theorem isSign_iff {b : UInt8} : isSign b = true ↔ b = 43 ∨ b = 45 ∨ b = 33 ∨ b = 126 := by
  simp [isSign, or_assoc]

theorem primary_marked (hr : c.rest = a :: rest) (ha : isSign a = true) :
    (primary g).run c = (if beginsWith "++" c.rest then step g "++"
      else if beginsWith "--" c.rest then step g "--"
      else signed g .unaryOperation .unary (String.singleton (Char.ofNat a.toNat))).run c := by
  have ha' := isSign_iff.1 ha
  have htoken : BeginsToken c.rest := by
    rw [hr]
    exact beginsToken_solid (by rcases ha' with rfl | rfl | rfl | rfl <;> rfl)
  have hscalar : beginsNoScalar a = true := by rcases ha' with rfl | rfl | rfl | rfl <;> rfl
  have hlabel : isLabelByte a = false := by rcases ha' with rfl | rfl | rfl | rfl <;> rfl
  have hat : atNumber c.rest = false := by rw [hr]; exact atNumber_eq_false hscalar
  have hstr : atString c.rest = false := by rw [hr]; exact atString_eq_false hscalar
  have hn : nameLength c.rest = 0 := by rw [hr]; exact nameLength_boundary (boundary_cons hlabel)
  unfold primary
  rw [run_bind_some run_openGap, htoken.gapsBeforeAttributes, Cursor.past_zero,
    run_bind_some run_remaining]
  simp only [hat, hstr, hn, bne_self_eq_false, Bool.false_eq_true, if_false]
  rw [hr]
  rcases ha' with rfl | rfl | rfl | rfl <;> rfl

/-- Unless two equal signs make a step, a sign takes the operand behind it. -/
theorem primary_signed (hr : c.rest = a :: rest) (ha : isSign a = true)
    (hglue : a = 43 ∨ a = 45 → rest.head? ≠ some a) : (primary g).run c =
      (signed g .unaryOperation .unary (String.singleton (Char.ofNat a.toNat))).run c := by
  rw [primary_marked hr ha, hr]
  cases rest with
  | nil => rcases isSign_iff.1 ha with rfl | rfl | rfl | rfl <;> rfl
  | cons b rest =>
    rcases isSign_iff.1 ha with rfl | rfl | rfl | rfl
    · have hb : b ≠ 43 := by simpa using hglue (.inl rfl)
      simp [beginsWith, beginsWith.go, ascii, Ne.symm hb]
    · have hb : b ≠ 45 := by simpa using hglue (.inr rfl)
      simp [beginsWith, beginsWith.go, ascii, Ne.symm hb]
    · rfl
    · rfl

section
variable (hr : c.rest = a :: rest) (ha : isSign a = true)
include hr ha

theorem sign_begins : BeginsToken c.rest ∧
    beginsWith (String.singleton (Char.ofNat a.toNat)) c.rest = true ∧
    (String.singleton (Char.ofNat a.toNat)).length = 1 := by
  rw [hr]
  refine ⟨beginsToken_solid ?_, ?_, ?_⟩ <;> rcases isSign_iff.1 ha with rfl | rfl | rfl | rfl <;> rfl

theorem primary_sign {x : Node} {d : Cursor} (hglue : a = 43 ∨ a = 45 → rest.head? ≠ some a)
    (h : (signedOperand g).run (c.past 1) = some (x, d)) :
    (primary g).run c = some (.closed .unary (.mk .unaryOperation c.offset d.offset [x]), d) := by
  obtain ⟨htoken, hbegins, hlength⟩ := sign_begins hr ha
  rw [primary_signed hr ha hglue]
  unfold signed
  rw [run_bind_some (run_nodeOf (d := d) htoken.gaps ?_)]
  · rfl
  · rw [Cursor.past_zero, run_bind_some (run_symbol_at htoken.gaps hbegins hlength), run_bind_some h]
    rfl

theorem primary_sign_none (hglue : a = 43 ∨ a = 45 → rest.head? ≠ some a)
    (h : (signedOperand g).run (c.past 1) = none) : (primary g).run c = none := by
  obtain ⟨htoken, hbegins, hlength⟩ := sign_begins hr ha
  rw [primary_signed hr ha hglue]
  unfold signed
  refine run_bind_none (run_nodeOf_none htoken.gaps ?_)
  rw [Cursor.past_zero, run_bind_some (run_symbol_at htoken.gaps hbegins hlength)]
  exact run_bind_none h

end

/-- Two equal signs are a step, which wants a place behind it. -/
theorem primary_step_none (hr : c.rest = a :: a :: rest) (ha : a = 43 ∨ a = 45)
    (h : (g.place).run (c.past 2) = none) : (primary g).run c = none := by
  have hstep : ∀ sign, gaps c.rest = 0 → beginsWith sign c.rest = true → sign.length = 2 →
      (step g sign).run c = none := by
    intro sign hgap hbegins hlength
    unfold step
    refine run_bind_none (run_nodeOf_none hgap ?_)
    rw [Cursor.past_zero, run_bind_some (run_symbol_at hgap hbegins hlength)]
    exact run_bind_none h
  rw [primary_marked hr (by rcases ha with rfl | rfl <;> rfl)]
  rw [hr] at hstep ⊢
  rcases ha with rfl | rfl
  · exact hstep "++" (beginsToken_solid rfl).gaps rfl rfl
  · exact hstep "--" (beginsToken_solid rfl).gaps rfl rfl

/-- A keyword alone as a literal. -/
theorem run_wordLeaf {kind : Kind} {word : String} (hn : nameLength c.rest ≠ 0)
    (hw : wordAt c.rest = word) : (leaf kind (keyword word)).run c =
      some (.mk kind c.offset (c.offset + nameLength c.rest) [], c.past (nameLength c.rest)) := by
  have hgap := (beginsToken_name hn).gaps
  have hkey : (keyword word).run (c.past 0) = some ((), c.past (nameLength c.rest)) := by
    rw [Cursor.past_zero, run_keyword hgap hw, List.drop_zero, Nat.zero_add]
  exact run_leaf hgap hkey

theorem wordOperand_literal (hn : nameLength c.rest ≠ 0)
    (hw : wordAt c.rest = "null" ∨ wordAt c.rest = "true" ∨ wordAt c.rest = "false") :
    (wordOperand g c.rest).run c =
      some (.closed .primary (.mk
        (if wordAt c.rest = "null" then .nullLiteral else .booleanLiteral)
        c.offset (c.offset + nameLength c.rest) []), c.past (nameLength c.rest)) := by
  unfold wordOperand
  rcases hw with hw | hw | hw <;>
  · rw [run_bind_some run_position]
    simp only [hw]
    rw [run_bind_some (run_wordLeaf hn hw)]
    rfl

/-! ## Names -/

theorem run_segment_none (h : (thenIs "\\").run c = some (false, c)) : segment.run c = none := by
  unfold Reader.segment
  rw [run_bind_some h]
  exact run_bind_none (run_require_false rfl)

/-- A backslash and a name, with gaps in front of both. -/
theorem run_segment {g k s u : Bytes} (hr : c.rest = g ++ 92 :: (k ++ (s ++ u)))
    (hg : PassedBehind g) (hk : Passed k) (hs : IsName s) (hu : nameTail u = 0) :
    segment.run c = some ((), c.past (g.length + (1 + (k.length + s.length)))) := by
  have htoken : BeginsToken (92 :: (k ++ (s ++ u))) := beginsToken_solid rfl
  have hgap : gaps c.rest = g.length := by rw [hr, hg.passed htoken]
  have hdrop : c.rest.drop g.length = 92 :: (k ++ (s ++ u)) := by rw [hr, List.drop_left]
  have hname : (c.past (g.length + 1)).rest = k ++ (s ++ u) := by
    rw [Cursor.past_rest, ← List.drop_drop, hdrop]
    rfl
  have hbegins : beginsWith "\\" (92 :: (k ++ (s ++ u))) = true := rfl
  unfold Reader.segment
  rw [run_bind_some (run_thenIs_passed hr hg htoken _), run_bind_some (run_require_true hbegins),
    run_bind_some (run_symbol hgap (by rw [hdrop]; exact hbegins))]
  show (identifier >>= fun _ => pure ()).run (c.past (g.length + 1)) = _
  rw [run_bind_some (run_identifier_passed hname hk hs hu), Cursor.past_past, Nat.add_assoc]
  rfl

/-- Further parts of a name: a backslash and a name in each, with gaps in front of both. -/
inductive Segments : Bytes → Prop
  | nil : Segments []
  | cons {g k s r : Bytes} : PassedBehind g → Passed k → IsName s → Segments r →
      Segments (g ++ 92 :: (k ++ (s ++ r)))

theorem Segments.append {r t : Bytes} (hr : Segments r) (ht : Segments t) : Segments (r ++ t) := by
  induction hr with
  | nil => exact ht
  | cons hg hk hs _ ih => simpa using Segments.cons hg hk hs ih

/-- What stands in front of further parts of a name is a name whole. -/
theorem Segments.nameTail {r u : Bytes} (hr : Segments r) (hu : nameTail u = 0) :
    nameTail (r ++ u) = 0 := by
  cases hr with
  | nil => exact hu
  | @cons g k s r hg _ _ _ =>
    rw [List.append_assoc]
    exact nameTail_behind hg.passed (beginsToken_solid rfl) (nameTail_boundary (boundary_cons rfl))

/-- Each part is read, up to what is no further part. -/
theorem run_segments {r u : Bytes} (hr : Segments r) {b : Bool} (hu : nameTail u = 0)
    (hend : ∀ ⦃c : Cursor⦄, c.tagEnds = b → c.rest = u → (thenIs "\\").run c = some (false, c)) :
    ∀ {fuel : Nat} {c : Cursor}, r.length ≤ fuel → c.tagEnds = b → c.rest = r ++ u →
      ∃ units : List Unit, (units = [] ↔ r = []) ∧
        (manyWithin segment fuel).run c = some (units, c.past r.length) := by
  induction hr with
  | nil =>
    intro fuel c _ ht hrest
    exact ⟨[], by simp, run_manyWithin_none (run_segment_none (hend ht hrest)) fuel⟩
  | @cons g k s r hg hk hs hr ih =>
    intro fuel c hfuel ht hrest
    obtain ⟨fuel, rfl⟩ : ∃ n, fuel = n + 1 := ⟨fuel - 1, by simp at hfuel; omega⟩
    have hrest' : c.rest = g ++ 92 :: (k ++ (s ++ (r ++ u))) := by simp [hrest]
    have hlength : (g ++ 92 :: (k ++ (s ++ r))).length =
        g.length + (1 + (k.length + s.length)) + r.length := by
      simp
      omega
    have hdrop : (c.past (g.length + (1 + (k.length + s.length)))).rest = r ++ u := by
      have hfront : c.rest = (g ++ 92 :: (k ++ s)) ++ (r ++ u) := by simp [hrest]
      have hfrontLength : (g ++ 92 :: (k ++ s)).length = g.length + (1 + (k.length + s.length)) := by
        simp
        omega
      rw [← hfrontLength]
      exact Cursor.past_rest_append hfront
    obtain ⟨units, -, hrun⟩ := @ih fuel (c.past (g.length + (1 + (k.length + s.length))))
      (by omega) ht hdrop
    refine ⟨() :: units, by simp, ?_⟩
    rw [run_manyWithin_cons (run_segment hrest' hg hk hs (hr.nameTail hu)) hrun, Cursor.past_past,
      hlength]

/-- Names with a backslash in front of each. -/
def pathBytes (names : List Bytes) : Bytes := names.flatMap (92 :: ·)

/-- A class name from the root: names with backslashes between them. -/
def IsPath (c : String) : Prop :=
  ∃ s names, Utf8.bytesOf ("\\" ++ c) = pathBytes (s :: names) ∧ ∀ t ∈ s :: names, IsName t

theorem boundary_path {names : List Bytes} {u : Bytes} (hu : Boundary u) :
    Boundary (pathBytes names ++ u) := by
  cases names with
  | nil => exact hu
  | cons s names => exact boundary_cons rfl

/-- No further part of a path follows. -/
def EndsPath (tagEnds : Bool) (u : Bytes) : Prop :=
  Boundary u ∧ ∀ ⦃c : Cursor⦄, c.tagEnds = tagEnds → c.rest = u →
    (thenIs "\\").run c = some (false, c)

theorem endsPath_inner {u : Bytes} (hu : Boundary u)
    (hb : beginsWith "\\" (u.drop (gaps u)) = false) : EndsPath false u :=
  ⟨hu, fun c ht hr => by rw [run_thenIs ht, hr, hb]⟩

theorem segments_pathBytes {names : List Bytes} (hnames : ∀ s ∈ names, IsName s) :
    Segments (pathBytes names) := by
  induction names with
  | nil => exact .nil
  | cons s names ih =>
    have hrest := ih fun t ht => hnames t (by simp [ht])
    exact Segments.cons passedBehind_nil passed_nil (hnames s (by simp)) hrest

/-- A name from the root, with gaps between its parts, in front of what is no further part of it. -/
theorem run_anyName_rooted {k s r u : Bytes} (hk : Passed k) (hs : IsName s) (hr : Segments r)
    (hu : EndsPath c.tagEnds u) (hsize : c.rest.length ≤ c.size)
    (hrest : c.rest = 92 :: (k ++ (s ++ r)) ++ u) :
    anyName.run c = some (.mk .qualifiedName c.offset
      (c.offset + (92 :: (k ++ (s ++ r))).length) [], c.past (92 :: (k ++ (s ++ r))).length) := by
  have hrest' : c.rest = 92 :: (k ++ (s ++ (r ++ u))) := by simp [hrest]
  have htail : nameTail u = 0 := nameTail_boundary hu.1
  have hgap : gaps c.rest = 0 := by rw [hrest']; exact (beginsToken_solid rfl).gaps
  have hroot : beginsWith "\\" c.rest = true := by rw [hrest']; rfl
  have hword : wordAt c.rest = "" := by rw [hrest']; exact wordAt_boundary (boundary_cons rfl)
  have hname : (c.past 1).rest = k ++ (s ++ (r ++ u)) := by simp [hrest']
  have hparts : ((c.past 1).past (k.length + s.length)).rest = r ++ u := by
    have hfront : (c.past 1).rest = (k ++ s) ++ (r ++ u) := by rw [hname, List.append_assoc]
    rw [← List.length_append]
    exact Cursor.past_rest_append hfront
  have hfuel : r.length ≤ c.size + 1 := by
    rw [hrest'] at hsize
    simp at hsize
    omega
  obtain ⟨units, -, hmany⟩ := run_segments hr htail hu.2
    (c := (c.past 1).past (k.length + s.length)) hfuel rfl hparts
  have hlength : 1 + (k.length + s.length + r.length) = (92 :: (k ++ (s ++ r))).length := by
    simp
    omega
  have hpath : path.run c = some (.mk .qualifiedName c.offset
      (c.offset + (92 :: (k ++ (s ++ r))).length) [], c.past (92 :: (k ++ (s ++ r))).length) := by
    unfold path
    rw [run_bind_some run_gap, hgap, Cursor.past_zero, run_bind_some run_position,
      run_bind_some (run_nextIs _), hgap, List.drop_zero, hroot]
    simp only [if_true]
    rw [run_bind_some (run_symbol_at (n := 1) hgap hroot rfl),
      run_bind_some (run_identifier_passed hname hk hs (hr.nameTail htail)),
      run_bind_some (r := many segment) hmany, run_nodeFrom, Cursor.past_past, Cursor.past_past,
      hlength]
    rfl
  unfold anyName
  rw [run_bind_some run_nextWord, hgap, List.drop_zero, hword, run_bind_some hpath,
    run_bind_some (run_require_true (by simp))]
  rfl

/-- A path from the root, in front of what is no further part of it. -/
theorem run_anyName_absolute {s : Bytes} {names : List Bytes} {u : Bytes}
    (hs : IsName s) (hnames : ∀ t ∈ names, IsName t) (hu : EndsPath c.tagEnds u)
    (hsize : c.rest.length ≤ c.size) (hr : c.rest = pathBytes (s :: names) ++ u) :
    anyName.run c = some (.mk .qualifiedName c.offset
      (c.offset + (pathBytes (s :: names)).length) [], c.past (pathBytes (s :: names)).length) :=
  run_anyName_rooted passed_nil hs (segments_pathBytes hnames) hu hsize hr

/-- A single name, in front of what is no further part of it. -/
theorem run_anyName_single {s u : Bytes} (hs : IsName s) (hu : EndsPath c.tagEnds u)
    (hw : String.ofList (folded s) ≠ "namespace") (hr : c.rest = s ++ u) :
    anyName.run c = some (.mk .name c.offset (c.offset + s.length) [], c.past s.length) := by
  have hn : nameLength c.rest ≠ 0 := by
    rw [hr, nameLength_append hs hu.1]
    simpa using hs.1
  have hgap := (beginsToken_name hn).gaps
  have hroot : beginsWith "\\" c.rest = false := beginsWith_name hn rfl rfl
  have hword : wordAt c.rest = String.ofList (folded s) := by rw [hr, wordAt_append hs hu.1]
  have h1 : (c.past s.length).rest = u := by simp [hr]
  have hmany : (many segment).run (c.past s.length) = some ([], c.past s.length) :=
    run_many_none (run_segment_none (hu.2 rfl h1))
  have hpath : path.run c =
      some (.mk .name c.offset (c.offset + s.length) [], c.past s.length) := by
    unfold path
    rw [run_bind_some run_gap, hgap, Cursor.past_zero, run_bind_some run_position,
      run_bind_some (run_nextIs _), hgap, List.drop_zero, hroot]
    simp only [Bool.false_eq_true, if_false]
    rw [run_bind_some (run_identifier_at hr hs hu.1), run_bind_some hmany]
    rfl
  unfold anyName
  rw [run_bind_some run_nextWord, hgap, List.drop_zero, hword, run_bind_some hpath,
    run_bind_some (run_require_true (by simp [hw]))]
  rfl

/-- A constant of a class, behind the class. -/
theorem run_scopedMember {x : Node} {s u : Bytes} (hs : IsName s) (hu : Boundary u)
    (hb : beginsWith "(" (u.drop (gaps u)) = false) (ht : c.tagEnds = false)
    (hr : c.rest = 58 :: 58 :: s ++ u) : (scopedMember g x).run c =
      some (.value (.mk .classConstant x.start (c.offset + (s.length + 2))
        [x, .mk .name (c.offset + 2) (c.offset + (2 + s.length)) []]), c.past (s.length + 2)) := by
  have htoken : BeginsToken c.rest := by rw [hr]; exact beginsToken_solid rfl
  have hcolons : beginsWith "::" c.rest = true := by rw [hr]; rfl
  have h2 : (c.past 2).rest = s ++ u := by simp [hr]
  have hn : nameLength (c.past 2).rest ≠ 0 := by
    rw [h2, nameLength_append hs hu]
    simpa using hs.1
  have hname := beginsToken_name hn
  have hend : ((c.past 2).past s.length).rest = u := Cursor.past_rest_append h2
  have hmember : (memberName g).run (c.past 2) = some (.mk .name (c.past 2).offset
      ((c.past 2).offset + s.length) [], (c.past 2).past s.length) := by
    unfold memberName
    rw [run_bind_some (run_nextIs _), hname.gaps, List.drop_zero,
      beginsWith_name hn (c := '$') rfl rfl]
    simp only [Bool.false_eq_true, if_false]
    rw [run_bind_some (run_nextIs _), hname.gaps, List.drop_zero,
      beginsWith_name hn (c := '\x7b') rfl rfl]
    exact run_identifier_at h2 hs hu
  have hargs : (maybeArguments g).run ((c.past 2).past s.length) =
      some ([], (c.past 2).past s.length) := by
    unfold maybeArguments
    rw [run_bind_some (run_thenIs (c := (c.past 2).past s.length) ht _), hend, hb]
    rfl
  unfold scopedMember
  rw [run_bind_some (run_interpolations_nil htoken),
    run_bind_some (run_symbol_at (n := 2) htoken.gaps hcolons rfl),
    run_bind_some (run_interpolations_nil hname), run_bind_some hmember, run_bind_some hargs]
  simp only [Node.kind, beq_self_eq_true, if_true]
  rw [run_bind_some (run_nodeFrom _ _ _), Cursor.past_past, Nat.add_comm 2, Cursor.past_offset,
    Cursor.past_offset, Nat.add_assoc, Nat.add_comm 2]
  rfl

/-- A class by its path and a constant of it. -/
theorem operandWith_reference {s : Bytes} {names : List Bytes} {n u : Bytes} (hs : IsName s)
    (hnames : ∀ t ∈ names, IsName t) (hn : IsName n) (hu : Boundary u)
    (hsettled : Settled (u.drop (gaps u))) (ht : c.tagEnds = false)
    (hsize : c.rest.length ≤ c.size)
    (hr : c.rest = pathBytes (s :: names) ++ 58 :: 58 :: n ++ u) {k m : Nat}
    (hk : (pathBytes (s :: names) ++ 58 :: 58 :: n).length = k)
    (hm : (pathBytes (s :: names)).length = m) :
    (operandWith g).run c = some (.value (.mk .classConstant c.offset (c.offset + k)
      [.mk .qualifiedName c.offset (c.offset + m) [],
        .mk .name (c.offset + (m + 2)) (c.offset + (m + 2 + n.length)) []]), c.past k) := by
  have hr' : c.rest = pathBytes (s :: names) ++ (58 :: 58 :: n ++ u) := by simp [hr]
  have hfirst : c.rest = 92 :: (s ++ (pathBytes names ++ (58 :: 58 :: n ++ u))) := by
    simp [hr, pathBytes]
  have htoken : BeginsToken c.rest := by rw [hfirst]; exact beginsToken_solid rfl
  have hgap : gaps (58 :: 58 :: n ++ u) = 0 := (beginsToken_solid rfl).gaps
  have hends : EndsPath c.tagEnds (58 :: 58 :: n ++ u) := by
    rw [ht]
    exact endsPath_inner (boundary_cons rfl) (by rw [hgap]; rfl)
  have hname := run_anyName_absolute hs hnames hends hsize hr'
  rw [hm] at hname
  have hscope : (c.past m).rest = 58 :: 58 :: n ++ u := by
    rw [← hm]
    exact Cursor.past_rest_append hr'
  have hmember := run_scopedMember (g := g) (c := c.past m)
    (x := .mk .qualifiedName c.offset (c.offset + m) []) hn hu hsettled.parenthesis ht hscope
  have hend : ((c.past m).past (n.length + 2)).rest = u := by simp [hr, ← hm]
  have hlen : m + (n.length + 2) = k := by simp [← hm, ← hk]
  have hext : (extension g (.value (.mk .qualifiedName c.offset (c.offset + m) []))).run (c.past m) =
      (scopedMember g (.mk .qualifiedName c.offset (c.offset + m) [])).run (c.past m) := by
    unfold extension
    rw [run_bind_some (run_behindOperand (c := c.past m) ht), hscope, hgap]
    rfl
  unfold operandWith
  rw [run_bind_some (primary_absolute hfirst hname), run_bind_some run_turns, extensionsWithin,
    if_neg (by simp [Operand.value]), run_bind_some (run_maybe_some (hext.trans hmember))]
  dsimp only
  rw [run_extensionsWithin (c := (c.past m).past (n.length + 2)) ht
    (by rw [hend]; exact hsettled) (by simp [Operand.value]), Cursor.past_past, ← hlen]
  simp [Node.start, Nat.add_assoc]

end

end FacadeStubs.Php
