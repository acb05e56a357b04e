import FacadeStubs.Proofs.Export.Grouping
import FacadeStubs.Proofs.Facts.Rewriting
import FacadeStubs.Proofs.Layout.Statements
import FacadeStubs.Proofs.Reader.Constants

/-!
# Expressions of the source

An expression of the source is taken for a constant without its parentheses. Operations on source text
alone are kept as source text, with absolute class names and all that stands between the operands.

`SourceExpr` is an expression as its source writes it, with the constants that its operands are taken for;
`written` is what the source has, and `kept` the same with absolute class names.

Results:
* `constant_ofNode`: the node of an expression is taken for the constant of its `SourceExpr`.
* `kept_proper`: with absolute class names the operators can still be told from their operands.
* `bytesOf_absoluteSource`: the text that an operation is kept as is that of `kept`, whatever stands
  between its operands.
-/
namespace FacadeStubs.Php

open Lexical Reader

/-! ## Absolute text piece by piece -/

/-- The bytes of a text. -/
def IsText (t : Bytes) : Prop := ∃ cs, t = Utf8.encode cs

theorem IsText.append {s t : Bytes} (hs : IsText s) (ht : IsText t) : IsText (s ++ t) := by
  obtain ⟨cs, rfl⟩ := hs
  obtain ⟨ds, rfl⟩ := ht
  exact ⟨cs ++ ds, (Utf8.encode_append cs ds).symm⟩

theorem IsText.head {t : Bytes} (h : IsText t) : ∀ b ∈ t.head?, Utf8.isTail b = false := by
  obtain ⟨cs, rfl⟩ := h
  exact Utf8.isTail_head_encode

theorem IsText.encode_lossy {t : Bytes} (h : IsText t) : Utf8.encode (Utf8.lossy t) = t := by
  obtain ⟨cs, rfl⟩ := h
  rw [Utf8.lossy_encode]

/-- No character goes on at a position of a source. -/
def IsCut (source : Bytes) (i : Nat) : Prop := ∀ b ∈ (source.drop i).head?, Utf8.isTail b = false

section
variable {source : Bytes} {lo mid hi : Nat}

theorem isCut_of_stretch {t : Bytes} (h : stretch source lo hi = t) (hne : t ≠ []) (ht : IsText t) :
    IsCut source lo := by
  intro b hb
  refine ht.head b ?_
  rw [← h, stretch]
  cases hdrop : source.drop lo with
  | nil =>
    rw [stretch, hdrop, List.take_nil] at h
    exact absurd h.symm hne
  | cons a rest =>
    cases hlength : hi - lo with
    | zero =>
      rw [stretch, hlength, List.take_zero] at h
      exact absurd h.symm hne
    | succ n => rwa [hdrop] at hb

theorem sliceText_append (hcut : IsCut source mid) (hlo : lo ≤ mid) (hhi : mid ≤ hi) :
    sliceText source lo hi = sliceText source lo mid ++ sliceText source mid hi := by
  have hhead : ∀ b ∈ ((source.drop mid).take (hi - mid)).head?, Utf8.isTail b = false := by
    intro b hb
    refine hcut b ?_
    cases hn : hi - mid with
    | zero => rw [hn, List.take_zero] at hb; cases hb
    | succ n =>
      rw [hn] at hb
      cases hdrop : source.drop mid with
      | nil => rw [hdrop] at hb; cases hb
      | cons a rest => rwa [hdrop] at hb
  rw [sliceText, ← take_drop_append source hlo hhi, Utf8.lossy_append _ hhead]
  rfl

/-- A text with replacements is in two parts on both sides of a place where no character goes on. -/
theorem replaced_append {rs rs' : List Replacement} (hrs : Placed lo mid rs) (hrs' : Placed mid hi rs')
    (hcut : IsCut source mid) : replaced source hi lo (rs ++ rs') =
      replaced source mid lo rs ++ replaced source hi mid rs' := by
  induction rs generalizing lo with
  | nil =>
    cases rs' with
    | nil => exact sliceText_append hcut hrs hrs'
    | cons r rest =>
      rw [List.nil_append, replaced, replaced, replaced, sliceText_append hcut hrs hrs'.1]
      simp only [List.append_assoc]
  | cons r rest ih =>
    rw [List.cons_append, replaced, replaced, ih hrs.2.2, List.append_assoc, List.append_assoc,
      List.append_assoc]

end

/-- The text of a node with every class name in it absolute, before it is trimmed. -/
def absoluteText (source : Bytes) (scope : ClassScope) (n : Node) : List Char :=
  replaced source n.stop n.start (references source scope n)

section
variable {source : Bytes} {scope : ClassScope} {start stop i j : Nat} {x y : Node}

theorem references_parenthesized :
    references source scope (.mk .parenthesized start stop [x]) = references source scope x := by
  rw [references_cons (by decide), if_neg (by simp [Kind.namesClass]), referencesIn, List.append_nil]

theorem references_sign :
    references source scope (.mk .unaryOperation start stop [x]) = references source scope x := by
  rw [references_cons (by decide), if_neg (by simp [Kind.namesClass]), referencesIn, List.append_nil]

theorem references_binary :
    references source scope (.mk .binaryOperation start stop [x, .mk .operator i j [], y]) =
      references source scope x ++ references source scope y := by
  rw [references_cons (by decide), if_neg (by simp [Kind.namesClass]), referencesIn, referencesIn,
    referencesIn, references_nil (by decide), List.nil_append, List.append_nil]

end

/-- An operator is spelled in text, and in any letter case it is the same word. -/
theorem exists_spelling {o : BinaryOperator} (ho : o ∈ operators) {sign : Bytes}
    (h : sign.map lowerByte = o.bytes) :
    ∃ s : String, sign = Utf8.bytesOf s ∧ lowerCase s = o.text := by
  let shown (sign : Bytes) : String := String.ofList (sign.map fun b => Char.ofNat b.toNat)
  rcases List.mem_append.1 ho with ho | ho
  · have hall : ∀ o ∈ wordOperators, ∀ s ∈ spellings o.bytes,
        s = Utf8.bytesOf (shown s) ∧ lowerCase (shown s) = o.text := by decide +kernel
    exact ⟨shown sign, hall o ho sign (mem_spellings h)⟩
  · have hall : ∀ o ∈ signOperators, lowerCase o.text = o.text := by decide
    exact ⟨o.text, eq_of_spelled_sign ho h, hall o ho⟩

namespace Written

/-- The operands of an expression and what stands between its tokens are text. -/
def IsText : Written → Prop
  | atom t => Php.IsText t
  | parenthesized g p k => Php.IsText g ∧ p.IsText ∧ Php.IsText k
  | sign _ g p => Php.IsText g ∧ p.IsText
  | binary m l r => Php.IsText m.before ∧ Php.IsText m.after ∧ l.IsText ∧ r.IsText

theorem isText_mark {m : OperatorMark} {left right : Bytes} (h : m.Fits left right)
    (hbefore : Php.IsText m.before) (hafter : Php.IsText m.after) :
    Php.IsText (m.before ++ (m.sign ++ m.after)) := by
  obtain ⟨s, hs, -⟩ := exists_spelling h.operator h.spelled
  exact hbefore.append (IsText.append ⟨s.toList, hs⟩ hafter)

theorem isText_sign {op : UInt8} (h : isSign op = true) : Php.IsText [op] := by
  rcases isSign_iff.1 h with rfl | rfl | rfl | rfl
  · exact ⟨['+'], rfl⟩
  · exact ⟨['-'], rfl⟩
  · exact ⟨['!'], rfl⟩
  · exact ⟨['~'], rfl⟩

theorem isText_text : ∀ {p : Written}, p.Formed → p.IsText → Php.IsText p.text
  | atom _, _, h => h
  | parenthesized g p k, hp, h => by
    have hopen : Php.IsText [40] := ⟨['('], rfl⟩
    have hclose : Php.IsText [41] := ⟨[')'], rfl⟩
    exact hopen.append (h.1.append ((isText_text hp.2.1 h.2.1).append (h.2.2.append hclose)))
  | sign op g p, hp, h => (isText_sign hp.1).append (h.1.append (isText_text hp.2.2 h.2))
  | binary m l r, hp, h => by
    have hmark := isText_mark hp.1 h.1 h.2.1
    have htext := (isText_text hp.2.1 h.2.2.1).append (hmark.append (isText_text hp.2.2 h.2.2.2))
    simpa [text] using htext

end Written

section
variable {source : Bytes} {scope : ClassScope} {x : Node} {p : Written}

theorem Node.WrittenAs.isCut (h : x.WrittenAs source p) (hp : p.Formed) (ht : p.IsText) :
    IsCut source x.start := by
  have hstretch : stretch source x.start x.stop = p.text := h.covers.bytes
  exact isCut_of_stretch hstretch hp.text_ne_nil (Written.isText_text hp ht)

/-- In front of a node its source is kept. -/
theorem replaced_behind (hx : x.IsOrderly) {lo : Nat} (hlo : lo ≤ x.start) (hcut : IsCut source x.start) :
    replaced source x.stop lo (references source scope x) =
      Utf8.lossy (stretch source lo x.start) ++ absoluteText source scope x :=
  @replaced_append source lo x.start x.stop [] (references source scope x) hlo hx.placed hcut

/-- So it is on both sides of a node. -/
theorem replaced_around (hx : x.IsOrderly) (lo hi : Nat) (hlo : lo ≤ x.start) (hhi : x.stop ≤ hi)
    (hcut : IsCut source x.start) (hcut' : IsCut source x.stop) :
    replaced source hi lo (references source scope x) =
      Utf8.lossy (stretch source lo x.start) ++
        (absoluteText source scope x ++ Utf8.lossy (stretch source x.stop hi)) := by
  have hwhole : replaced source hi lo (references source scope x ++ []) = _ :=
    replaced_append (hx.placed.mono hlo) hhi hcut'
  rw [List.append_nil, replaced_behind hx hlo hcut, List.append_assoc] at hwhole
  exact hwhole

end

/-- What is read from a whole text is in order. -/
theorem isOrderly_of_expressionOf? {source : Bytes} {n : Node} (h : expressionOf? source = some n) :
    n.IsOrderly := by
  unfold expressionOf? at h
  dsimp only at h
  split at h
  · rename_i node c hrun
    split at h
    · cases h
      obtain ⟨-, hlaid⟩ := (laysOut_upTo true (source.length + 1)).expression Strength.any 0 ⟨rfl, rfl⟩
        (Laid.nil (Nat.le_refl _)) hrun
      exact hlaid.inOrder.isOrderly List.mem_cons_self
    · cases h
  · cases h

end FacadeStubs.Php

namespace FacadeStubs.Export

open Php Reader

/-! ## Integers of the source -/

theorem int64?_ne_least {i : Int} {k : Int64} (hi : -Decimal.int64Bound < i)
    (h : Decimal.int64? i = some k) : k ≠ Int64.minValue := by
  unfold Decimal.int64? Decimal.int64Bound at *
  split at h
  · cases h
    rintro hk
    have hk' := congrArg Int64.toInt hk
    rw [Int64.toInt_ofInt_of_le (by omega) (by omega)] at hk'
    have hmin : Int64.minValue.toInt = -9223372036854775808 := rfl
    omega
  · cases h

theorem readInt64?_ne_least {base : Nat} {digits : List Char} {k : Int64}
    (h : Decimal.readInt64? base digits = some k) : k ≠ Int64.minValue := by
  obtain ⟨n, -, hn⟩ := Option.bind_eq_some_iff.1 h
  have hbound : -Decimal.int64Bound < (n : Int) := by
    unfold Decimal.int64Bound
    omega
  exact int64?_ne_least hbound hn

theorem integer?_ne_least {text : List Char} {k : Int64} (h : Notation.integer? text = some k) :
    k ≠ Int64.minValue := by
  unfold Notation.integer? at h
  dsimp only at h
  split at h
  all_goals exact readInt64?_ne_least h

theorem int64?_neg_ne_least {i k : Int64} (h : Decimal.int64? (-i.toInt) = some k) :
    k ≠ Int64.minValue := by
  have hhigh : i.toInt < 9223372036854775808 := i.toInt_lt
  exact int64?_ne_least (by unfold Decimal.int64Bound; omega) h

theorem signedConstant?_ne_least {sign : Option Char} {v : Literal}
    (hv : v ≠ .int Int64.minValue) : signedConstant? sign v ≠ some (.int Int64.minValue) := by
  intro h
  unfold signedConstant? at h
  split at h
  · obtain ⟨k, hk, heq⟩ := Option.map_eq_some_iff.1 h
    exact int64?_neg_ne_least hk (Literal.int.inj heq)
  · cases h
  · exact hv (Option.some.inj h)
  · cases h
  · cases h
  · split at h
    · cases h
    · cases h
  · cases h

/-- What a sign makes of the constant behind it: source text stays that, numbers are signed at once,
and all else stands behind the sign as an operator. -/
theorem signedConstant?_cases {op : Char} {v : Literal} (hop : IsUnary op)
    (hv : v ≠ .int Int64.minValue) :
    (v.isExpr = true ∧ signedConstant? (some op) v = none) ∨
      v.isExpr = false ∧ ((∃ k, signedConstant? (some op) v = some (.int k)) ∨
        (∃ f, signedConstant? (some op) v = some (.float f)) ∨
        signedConstant? (some op) v = some (.unary op v)) := by
  cases v with
  | expr s =>
    left
    rcases hop with rfl | rfl | rfl | rfl <;> exact ⟨rfl, rfl⟩
  | int i =>
    refine .inr ⟨rfl, ?_⟩
    rcases hop with rfl | rfl | rfl | rfl
    · exact .inl ⟨i, rfl⟩
    · have hlow : -9223372036854775808 ≤ i.toInt := i.le_toInt
      have hmin : Int64.minValue.toInt = -9223372036854775808 := rfl
      have hne : i.toInt ≠ -9223372036854775808 := fun h =>
        hv (congrArg Literal.int (Int64.toInt_inj.1 (h.trans hmin.symm)))
      have hhigh : i.toInt < 9223372036854775808 := i.toInt_lt
      have hsome : Decimal.int64? (-i.toInt) = some (Int64.ofInt (-i.toInt)) :=
        if_pos (by unfold Decimal.int64Bound; omega)
      exact .inl ⟨_, by rw [signedConstant?, hsome]; rfl⟩
    · exact .inr (.inr rfl)
    · exact .inr (.inr rfl)
  | float f =>
    refine .inr ⟨rfl, .inr ?_⟩
    rcases hop with rfl | rfl | rfl | rfl
    · exact .inl ⟨f, rfl⟩
    · exact .inl ⟨-f, rfl⟩
    · exact .inr rfl
    · exact .inr rfl
  | _ =>
    refine .inr ⟨rfl, .inr (.inr ?_)⟩
    rcases hop with rfl | rfl | rfl | rfl <;> rfl

/-- A constant that is not source text is one that was found. -/
theorem eq_some_of_getD_expr {found : Option Literal} {s : String} {k : Int64}
    (h : found.getD (.expr s) = .int k) : found = some (.int k) := by
  cases found with
  | none => cases h
  | some v => exact congrArg some h

/-- No constant of the source is the smallest integer: its digits without the sign are too large a
number. -/
theorem constantOf_ne_least (source : Bytes) (scope : ClassScope) (n : Node) :
    constantOf source scope n ≠ .int Int64.minValue := by
  cases n with
  | mk kind start stop children =>
    have ih : ∀ x ∈ children, constantOf source scope x ≠ .int Int64.minValue :=
      fun x _ => constantOf_ne_least source scope x
    intro h
    unfold constantOf at h
    have hfound := eq_some_of_getD_expr h
    clear h
    dsimp only at hfound
    -- one case for each kind of node: only digits, parentheses and signs can give an integer
    split at hfound
    case h_3 =>
      obtain ⟨k, hk, heq⟩ := Option.map_eq_some_iff.1 hfound
      exact integer?_ne_least hk (Literal.int.inj heq)
    case h_7 =>
      unfold keywordConstant? at hfound
      split at hfound <;> cases hfound
    case h_8 inner _ => exact ih inner List.mem_cons_self (Option.some.inj hfound)
    case h_9 operand => exact signedConstant?_ne_least (ih operand List.mem_cons_self) hfound
    case h_10 => split at hfound <;> cases hfound
    case h_13 =>
      unfold classConstant? at hfound
      split at hfound
      · cases hfound
      · obtain ⟨cls, -, heq⟩ := Option.map_eq_some_iff.1 hfound
        split at heq <;> cases heq
    case h_4 | h_5 | h_6 | h_11 | h_12 =>
      obtain ⟨_, -, heq⟩ := Option.map_eq_some_iff.1 hfound
      cases heq
    all_goals cases hfound

/-! ## Expressions as their source writes them -/

/-- An operand of source text, with what it is kept as: absolute names neither begin nor end it in
another way. -/
structure KeptOperand (t : Bytes) (kept : String) : Prop where
  solid : Solid kept.toList
  atom : IsAtom (Utf8.bytesOf kept)
  first : (Utf8.bytesOf kept).head? = t.head? ∨ (Utf8.bytesOf kept).head? = some 92
  last : isClosed t = true → isClosed (Utf8.bytesOf kept) = true

/-- An operand without class names is kept as it is written. -/
theorem keptOperand_self {s : String} (h : Solid s.toList) (ha : IsAtom (Utf8.bytesOf s)) :
    KeptOperand (Utf8.bytesOf s) s := ⟨h, ha, .inl rfl, fun hclosed => hclosed⟩

/-- An expression of the source. An operand has its text, the same with absolute class names, and the
constant that it is taken for. Beside an operation stands the text that it is kept as if it is on source
text alone. -/
inductive SourceExpr where
  | leaf (text : Bytes) (kept : String) (value : Literal) (ne_least : value ≠ .int Int64.minValue)
  | parenthesized (before : Bytes) (inner : SourceExpr) (after : Bytes)
  | sign (op : Char) (gap : Bytes) (verbatim : String) (operand : SourceExpr)
  | binary (mark : OperatorMark) (verbatim : String) (left right : SourceExpr)

namespace SourceExpr

/-- The constant that an expression is taken for. -/
def constant : SourceExpr → Literal
  | leaf _ _ v _ => v
  | parenthesized _ x _ => x.constant
  | sign op _ s x => (signedConstant? (some op) x.constant).getD (.expr s)
  | binary m s l r =>
    if l.constant.isExpr && r.constant.isExpr then .expr s
    else .binary m.operator.text l.constant r.constant

/-- The expression of a node. -/
def ofNode (source : Bytes) (scope : ClassScope) : Node → SourceExpr
  | .mk .parenthesized start stop [x] =>
    .parenthesized (stretch source (start + 1) x.start) (ofNode source scope x)
      (stretch source x.stop (stop - 1))
  | .mk .unaryOperation start stop [x] =>
    .sign (Char.ofNat ((source.drop start).headD 0).toNat) (stretch source (start + 1) x.start)
      (absoluteSource source scope (.mk .unaryOperation start stop [x])) (ofNode source scope x)
  | .mk .binaryOperation start stop [left, op, right] =>
    .binary ⟨operatorWith ((op.bytes source).map lowerByte), stretch source left.stop op.start,
        op.bytes source, stretch source op.stop right.start⟩
      (absoluteSource source scope (.mk .binaryOperation start stop [left, op, right]))
      (ofNode source scope left) (ofNode source scope right)
  | n => .leaf (n.bytes source) (String.ofList (absoluteText source scope n)) (constantOf source scope n)
      (constantOf_ne_least source scope n)

/-- An expression as its source has it. -/
def written : SourceExpr → Written
  | leaf t _ _ _ => .atom t
  | parenthesized g x k => .parenthesized g x.written k
  | sign op g _ x => .sign op.toNat.toUInt8 g x.written
  | binary m _ l r => .binary m l.written r.written

/-- An expression as its source has it, but with absolute class names. -/
def kept : SourceExpr → Written
  | leaf _ s _ _ => .atom (Utf8.bytesOf s)
  | parenthesized g x k => .parenthesized g x.kept k
  | sign op g _ x => .sign op.toNat.toUInt8 g x.kept
  | binary m _ l r => .binary m l.kept r.kept

/-- All operands are source text that is one operand with absolute class names. -/
def IsKept : SourceExpr → Prop
  | leaf t s v _ => v = .expr s ∧ KeptOperand t s
  | parenthesized _ x _ => x.IsKept
  | sign _ _ _ x => x.IsKept
  | binary _ _ l r => l.IsKept ∧ r.IsKept

/-! ### With absolute class names -/

/-- What is kept begins as the source does, or with the root of a name. -/
theorem kept_head : ∀ {e : SourceExpr}, e.written.Formed → e.IsKept →
    e.kept.text.head? = e.written.text.head? ∨ e.kept.text.head? = some 92
  | leaf _ _ _ _, _, h => h.2.first
  | parenthesized _ _ _, _, _ => .inl rfl
  | sign _ _ _ _, _, _ => .inl rfl
  | binary m s l r, hp, h => by
    have hl := kept_head hp.2.1 h.1
    have hne : l.kept.text ≠ [] := by
      intro hnil
      obtain ⟨b, rest, hb⟩ := List.exists_cons_of_ne_nil hp.2.1.text_ne_nil
      rw [hnil, hb] at hl
      rcases hl with hl | hl <;> cases hl
    simp only [kept, written, Written.text]
    rwa [head?_append_of_ne_nil hne, head?_append_of_ne_nil hp.2.1.text_ne_nil]

/-- What may follow the source may follow what is kept. -/
theorem mayFollow_kept : ∀ {e : SourceExpr}, e.IsKept → ∀ b, mayFollow e.written.last b = true →
    mayFollow e.kept.last b = true
  | leaf t s _ _, h, b, hb => by
    obtain ⟨-, -, -, hfirst, hlast⟩ := h
    have hnumeral : isNumeral (Utf8.bytesOf s) = true → isNumeral t = true := by
      intro hs
      rcases hfirst with hfirst | hfirst
      · rwa [isNumeral, hfirst] at hs
      · rw [isNumeral, hfirst] at hs
        cases hs
    simp only [written, kept, Written.last, mayFollow] at hb ⊢
    grind
  | parenthesized _ _ _, _, _, hb => hb
  | sign _ _ _ x, h, b, hb => mayFollow_kept (e := x) h b hb
  | binary _ _ _ r, h, b, hb => mayFollow_kept (e := r) h.2 b hb

/-- With absolute class names the operators can still be told from their operands. -/
theorem kept_proper : ∀ {e : SourceExpr}, e.written.Formed → e.IsKept → e.kept.Proper
  | leaf _ _ _ _, _, h => h.2.atom
  | parenthesized _ _ _, hp, h => ⟨hp.1, kept_proper hp.2.1 h, hp.2.2⟩
  | sign _ _ _ _, hp, h => ⟨hp.1, hp.2.1, kept_proper hp.2.2 h⟩
  | binary m _ l r, hp, h => by
    obtain ⟨hfits, hl, hr⟩ := hp
    refine ⟨⟨hfits.operator, hfits.spelled, hfits.before, hfits.after, fun b hb => ?_, fun b hb => ?_⟩,
      kept_proper hl h.1, kept_proper hr h.2⟩
    · exact mayFollow_kept h.1 b (hfits.left b hb)
    · rw [List.head?_append] at hb
      cases ha : m.after.head? with
      | some a =>
        rw [ha, Option.some_or] at hb
        exact hfits.right b (by rw [List.head?_append, ha, Option.some_or]; exact hb)
      | none =>
        rw [ha, Option.none_or] at hb
        rcases kept_head hr h.2 with hhead | hhead
        · rw [hhead] at hb
          exact hfits.right b (by rw [List.head?_append, ha, Option.none_or]; exact hb)
        · rw [hhead] at hb
          obtain rfl : 92 = b := by simpa using hb
          have hall : ∀ o ∈ operators, o.endsBefore 92 = true := by decide +kernel
          exact hall _ hfits.operator

/-! ### The nodes of the source -/

section
variable {source : Bytes} {scope : ClassScope} {n : Node} {p : Written}

theorem ofNode_atomic (h : n.kind.isAtomic = true) : ofNode source scope n =
    .leaf (n.bytes source) (String.ofList (absoluteText source scope n)) (constantOf source scope n)
      (constantOf_ne_least source scope n) := by
  unfold ofNode
  split
  · cases h
  · cases h
  · cases h
  · rfl

/-- The source of a node is the expression that it shows. -/
theorem written_ofNode (n : Node) : (ofNode source scope n).written = Written.ofNode source n := by
  have hbyte : ∀ b : UInt8, (Char.ofNat b.toNat).toNat.toUInt8 = b := by
    intro b
    have hvalid : b.toNat.isValidChar := .inl (Nat.lt_trans b.toNat_lt (by decide))
    have hval : (Char.ofNat b.toNat).toNat = b.toNat := Utf8.val_ofNat hvalid
    rw [hval]
    exact UInt8.ofNat_toNat
  fun_induction ofNode source scope n with
  | case1 start stop x ih => rw [written, ih, Written.ofNode]
  | case2 start stop x ih => rw [written, ih, Written.ofNode, hbyte]
  | case3 start stop left op right ihl ihr => rw [written, ihl, ihr, Written.ofNode]
  | case4 n hparen hsign hbinary =>
    rw [written]
    unfold Written.ofNode
    split
    · exact absurd rfl (hparen _ _ _)
    · exact absurd rfl (hsign _ _ _)
    · exact absurd rfl (hbinary _ _ _ _ _)
    · rfl

/-- The node of an expression is taken for the constant of the expression. -/
theorem constant_ofNode (h : n.WrittenAs source p) (hp : p.Formed) (ht : p.IsText) :
    (ofNode source scope n).constant = constantOf source scope n := by
  induction h with
  | atom atomic _ => rw [ofNode_atomic atomic, constant]
  | @parenthesized start stop x g k p inner behind covers ih =>
    rw [ofNode, constant, ih hp.2.1 ht.2.1, constantOf]
    rfl
  | @sign start stop x op g p operand behind covers ih =>
    obtain ⟨cs, hcs⟩ := ht.1.append (Written.isText_text hp.2.2 ht.2)
    have hop : (source.drop start).headD 0 = op := covers.headD
    have hbytes : Utf8.bytesOf (Char.ofNat op.toNat).toString = [op] := by
      rcases isSign_iff.1 hp.1 with rfl | rfl | rfl | rfl <;> rfl
    have hblank : isBlank (Char.ofNat op.toNat) = false := by
      rcases isSign_iff.1 hp.1 with rfl | rfl | rfl | rfl <;> rfl
    have htext : Node.text source (.mk .unaryOperation start stop []) =
        (Char.ofNat op.toNat).toString ++ String.ofList cs := by
      refine Node.text_of_bytes (covers.bytes.trans ?_)
      rw [Written.text, Utf8.bytesOf_append, hbytes, Utf8.bytesOf_ofList, ← hcs]
      rfl
    have hhead : (trimmed ((Char.ofNat op.toNat).toString ++ String.ofList cs)).toList.head? =
        some (Char.ofNat op.toNat) := @head?_trimmed _ _ cs (by simp) hblank
    rw [ofNode, constant, ih hp.2.2 ht.2, hop, constantOf]
    simp only [htext, hhead]
  | @binary start stop i j x y m l r left right first between behind covers ihl ihr =>
    obtain ⟨s, hs, hlower⟩ := exists_spelling hp.1.operator hp.1.spelled
    have htext : (Node.mk .operator i j []).text source = s := Node.text_of_bytes (between.bytes.trans hs)
    have hoperator : operatorWith (((Node.mk .operator i j []).bytes source).map lowerByte) = m.operator := by
      rw [between.bytes, hp.1.spelled, operatorWith_bytes hp.1.operator]
    rw [ofNode, constant, ihl hp.2.1 ht.2.2.1, ihr hp.2.2 ht.2.2.2, constantOf]
    simp only [hoperator, htext, hlower]
    split <;> rfl

/-! ### Their absolute text -/

section
variable {start stop : Nat} {x y : Node} {op : UInt8} {g k : Bytes} {l r : Written}

theorem absoluteText_parenthesized (inner : x.WrittenAs source p) (behind : x.start = start + 1 + g.length)
    (covers : (Node.mk .parenthesized start stop [x]).Covers source start (Written.parenthesized g p k).text)
    (hp : p.Formed) (ht : p.IsText) (hk : Php.IsText k) (hx : x.IsOrderly) :
    absoluteText source scope (.mk .parenthesized start stop [x]) =
      ['('] ++ ((Utf8.lossy g ++ (absoluteText source scope x ++ Utf8.lossy k)) ++ [')']) := by
  have hlength : stop = start + (Written.parenthesized g p k).text.length := covers.stops
  simp only [Written.text, List.length_cons, List.length_append, List.length_nil] at hlength
  have hstop := inner.stop
  have hfront : stretch source start x.start = 40 :: g :=
    covers.stretch (a := []) (b := 40 :: g) (c := p.text ++ (k ++ [41])) rfl rfl
      (by rw [behind, List.length_cons]; omega)
  have hback : stretch source x.stop stop = k ++ [41] :=
    covers.stretch (a := 40 :: (g ++ p.text)) (c := []) (by simp [Written.text])
      (by simp only [List.length_cons, List.length_append]; omega)
      (by simp only [List.length_append, List.length_cons, List.length_nil]; omega)
  have hclose : Utf8.lossy (k ++ [41]) = Utf8.lossy k ++ [')'] := Utf8.lossy_append k (by simp; decide)
  have hcut : IsCut source x.stop := isCut_of_stretch hback (by simp) (hk.append ⟨[')'], rfl⟩)
  rw [absoluteText, references_parenthesized]
  refine (replaced_around hx start stop (by omega) (by omega) (inner.isCut hp ht) hcut).trans ?_
  rw [hfront, hback, hclose, Utf8.lossy_cons_ascii (by decide)]
  simp

theorem absoluteText_sign (operand : x.WrittenAs source p) (behind : x.start = start + 1 + g.length)
    (covers : (Node.mk .unaryOperation start stop [x]).Covers source start (Written.sign op g p).text)
    (hop : isSign op = true) (hp : p.Formed) (ht : p.IsText) (hx : x.IsOrderly) :
    absoluteText source scope (.mk .unaryOperation start stop [x]) =
      [Char.ofNat op.toNat] ++ (Utf8.lossy g ++ absoluteText source scope x) := by
  have hlength : stop = start + (Written.sign op g p).text.length := covers.stops
  simp only [Written.text, List.length_cons, List.length_append] at hlength
  have hstop : x.stop = stop := by rw [operand.stop]; omega
  have hfront : stretch source start x.start = op :: g :=
    covers.stretch (a := []) (b := op :: g) (c := p.text) rfl rfl (by rw [behind, List.length_cons]; omega)
  have hlow : op < 0x80 := by rcases isSign_iff.1 hop with rfl | rfl | rfl | rfl <;> decide
  rw [absoluteText, references_sign]
  show replaced source stop start (references source scope x) = _
  rw [← hstop, replaced_behind hx (by omega) (operand.isCut hp ht), hfront, Utf8.lossy_cons_ascii hlow]
  rfl

theorem absoluteText_binary {i j : Nat} {m : OperatorMark} (left : x.WrittenAs source l)
    (right : y.WrittenAs source r) (first : x.start = start)
    (between : (Node.mk .operator i j []).Covers source (x.stop + m.before.length) m.sign)
    (behind : y.start = j + m.after.length)
    (covers : (Node.mk .binaryOperation start stop [x, .mk .operator i j [], y]).Covers source start
      (Written.binary m l r).text)
    (hm : m.before ++ (m.sign ++ m.after) ≠ []) (hmark : Php.IsText (m.before ++ (m.sign ++ m.after)))
    (hr : r.Formed) (ht : r.IsText) (hx : x.IsOrderly) (hy : y.IsOrderly) :
    absoluteText source scope (.mk .binaryOperation start stop [x, .mk .operator i j [], y]) =
      absoluteText source scope x ++
        (Utf8.lossy (m.before ++ (m.sign ++ m.after)) ++ absoluteText source scope y) := by
  have hlength : stop = start + (Written.binary m l r).text.length := covers.stops
  have hbetween : j = x.stop + m.before.length + m.sign.length := between.stops
  simp only [Written.text, List.length_append] at hlength
  have hxstop := left.stop
  have hystop : y.stop = stop := by rw [right.stop]; omega
  have hgap : stretch source x.stop y.start = m.before ++ (m.sign ++ m.after) :=
    covers.stretch (a := l.text) (b := m.before ++ (m.sign ++ m.after)) (c := r.text)
      (by rw [Written.text]; simp only [List.append_assoc]) (by omega)
      (by simp only [List.length_append]; omega)
  have hcut : IsCut source x.stop := isCut_of_stretch hgap hm hmark
  rw [absoluteText, references_binary]
  show replaced source stop start _ = _
  rw [← hystop, ← first, replaced_append hx.placed (hy.placed.mono (by omega)) hcut,
    replaced_behind hy (by omega) (right.isCut hr ht), hgap]
  rfl

end

/-- The absolute text of an expression is that of `kept`: class names are replaced in its operands, and all
that stands between them stays. -/
theorem encode_absoluteText (h : n.WrittenAs source p) (hp : p.Formed) (ht : p.IsText) (ho : n.IsOrderly)
    (hk : (ofNode source scope n).IsKept) :
    Utf8.encode (absoluteText source scope n) = (ofNode source scope n).kept.text ∧
      Solid (absoluteText source scope n) := by
  induction h with
  | atom atomic _ =>
    rw [ofNode_atomic atomic] at hk ⊢
    refine ⟨(Utf8.bytesOf_ofList _).symm, ?_⟩
    have hsolid := hk.2.solid
    rwa [String.toList_ofList] at hsolid
  | @parenthesized start stop x g k p inner behind covers ih =>
    have hx : x.IsOrderly := (Node.isOrderly_iff.1 ho).isOrderly List.mem_cons_self
    obtain ⟨hencode, -⟩ := ih hp.2.1 ht.2.1 hx hk
    rw [absoluteText_parenthesized inner behind covers hp.2.1 ht.2.1 ht.2.2 hx]
    refine ⟨?_, (solid_mark (by decide)).append (solid_mark (by decide)) _⟩
    have hopen : Utf8.encode ['('] = [40] := rfl
    have hclose : Utf8.encode [')'] = [41] := rfl
    have hnode := (Node.WrittenAs.parenthesized inner behind covers).ofNode hp
    rw [Written.ofNode] at hnode
    obtain ⟨hbefore, -, hafter⟩ := Written.parenthesized.inj hnode
    rw [ofNode, hbefore, hafter, kept, Written.text, ← hencode]
    simp only [Utf8.encode_append, ht.1.encode_lossy, ht.2.2.encode_lossy, hopen, hclose]
    simp
  | @sign start stop x op g p operand behind covers ih =>
    have hx : x.IsOrderly := (Node.isOrderly_iff.1 ho).isOrderly List.mem_cons_self
    obtain ⟨hencode, hsolid⟩ := ih hp.2.2 ht.2 hx hk
    have hop := isSign_iff.1 hp.1
    have hblank : isBlank (Char.ofNat op.toNat) = false := by
      rcases hop with rfl | rfl | rfl | rfl <;> rfl
    have hsign : Utf8.encode [Char.ofNat op.toNat] = [(Char.ofNat op.toNat).toNat.toUInt8] := by
      rcases hop with rfl | rfl | rfl | rfl <;> rfl
    rw [absoluteText_sign operand behind covers hp.1 hp.2.2 ht.2 hx]
    refine ⟨?_, (solid_mark hblank).append hsolid _⟩
    have hnode := (Node.WrittenAs.sign operand behind covers).ofNode hp
    rw [Written.ofNode] at hnode
    rw [ofNode, covers.headD, (Written.sign.inj hnode).2.1, kept, Written.text, ← hencode,
      Utf8.encode_append, Utf8.encode_append, hsign, ht.1.encode_lossy]
    rfl
  | @binary start stop i j x y m l r left right first between behind covers ihl ihr =>
    have horder := Node.isOrderly_iff.1 ho
    have hx : x.IsOrderly := horder.isOrderly List.mem_cons_self
    have hy : y.IsOrderly := horder.isOrderly
      (List.mem_cons_of_mem _ (List.mem_cons_of_mem _ List.mem_cons_self))
    obtain ⟨hencode, hsolid⟩ := ihl hp.2.1 ht.2.2.1 hx hk.1
    obtain ⟨hencode', hsolid'⟩ := ihr hp.2.2 ht.2.2.2 hy hk.2
    have hmark := Written.isText_mark hp.1 ht.1 ht.2.1
    have hne : m.before ++ (m.sign ++ m.after) ≠ [] := fun hnil =>
      hp.1.sign_ne_nil (List.append_eq_nil_iff.1 (List.append_eq_nil_iff.1 hnil).2).1
    rw [absoluteText_binary left right first between behind covers hne hmark hp.2.2 ht.2.2.2 hx hy]
    refine ⟨?_, hsolid.append hsolid' _⟩
    have hnode := (Node.WrittenAs.binary left right first between behind covers).ofNode hp
    rw [Written.ofNode] at hnode
    have hown := (Written.binary.inj hnode).1
    rw [ofNode, hown, kept, Written.text, ← hencode, ← hencode', Utf8.encode_append, Utf8.encode_append,
      hmark.encode_lossy]
    simp

/-- The text that an operation on source text alone is kept as. -/
theorem bytesOf_absoluteSource (h : n.WrittenAs source p) (hp : p.Formed) (ht : p.IsText) (ho : n.IsOrderly)
    (hk : (ofNode source scope n).IsKept) :
    Utf8.bytesOf (absoluteSource source scope n) = (ofNode source scope n).kept.text := by
  obtain ⟨hencode, hsolid⟩ := encode_absoluteText h hp ht ho hk
  have htrim : absoluteSource source scope n = String.ofList (absoluteText source scope n) :=
    congrArg String.ofList (trimBlanks_solid hsolid)
  rw [htrim, Utf8.bytesOf_ofList, hencode]

end

end SourceExpr

end FacadeStubs.Export
