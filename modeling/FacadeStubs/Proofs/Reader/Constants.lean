import FacadeStubs.Php.Constant
import FacadeStubs.Proofs.Reader.Atoms
import FacadeStubs.Proofs.Reader.Reading
import FacadeStubs.Proofs.Text.Words

/-!
# Constants that written expressions stand for

The analysis takes the node of an expression for a constant by its kind and its text. `Written.Denotes`
follows an expression as it is written: its atoms stand for constants wherever they are read as
operands (`StandsFor`), and its signs and operators make constants of those.

Results:
* `standsFor_null`, `standsFor_bool`, `standsFor_digits`, `standsFor_quoted`, `standsFor_nulText`,
  `standsFor_reference`: the constants of single operands.
* `Written.Denotes.constantOf`: a node that was read from an expression is taken for the constant of
  the expression, whatever names are in scope.
-/
namespace FacadeStubs.Php

open Lexical Reader

/-! ## Texts of nodes -/

/-- The text of a node that covers what stands behind a cursor. -/
theorem Cursor.In.text {c : Cursor} {source u : Bytes} {s : String} {i j : Nat} (h : c.In source)
    (kind : Kind) (children : List Node) (hr : c.rest.drop i = Utf8.bytesOf s ++ u)
    (hj : (Utf8.bytesOf s).length = j) :
    Node.text source (.mk kind (c.offset + i) (c.offset + (i + j)) children) = s := by
  refine Node.text_of_bytes ?_
  rw [h.bytes, hr, ← hj, List.take_left]

theorem trimmed_solid {s : String} (h : Solid s.toList) : trimmed s = s := by
  rw [trimmed, trimBlanks_solid h]
  exact String.ofList_toList

/-- A text keeps its first character when it is trimmed, if that is no blank. -/
theorem head?_trimmed {s : String} {a : Char} {rest : List Char} (hs : s.toList = a :: rest)
    (ha : isBlank a = false) : (trimmed s).toList.head? = some a := by
  have hdrop : (a :: rest).dropWhile isBlank = a :: rest := by simp [ha]
  obtain ⟨g, hg, heq⟩ := exists_dropEndWhile isBlank (a :: rest)
  rw [trimmed, String.toList_ofList, trimBlanks, hs, hdrop]
  cases hend : dropEndWhile isBlank (a :: rest) with
  | nil =>
    rw [hend, List.nil_append] at heq
    have hblank := hg a (heq ▸ List.mem_cons_self)
    rw [ha] at hblank
    cases hblank
  | cons b t =>
    rw [hend] at heq
    have hab := (List.cons.inj heq).1
    rw [hab]
    rfl

/-! ## Operands -/

/-- Wherever a text is read as an operand, the operand is taken for a constant. -/
def StandsFor (t : Bytes) (v : Literal) : Prop :=
  ∀ ⦃g : Grammar⦄ ⦃source : Bytes⦄ ⦃c : Cursor⦄ ⦃u : Bytes⦄ (scope : ClassScope), c.In source →
    c.tagEnds = false → c.rest = t ++ u → Ends t u →
    ∃ o d, (operandWith g).run c = some (o, d) ∧ constantOf source scope o.node = v

/-- The text of a node without children, as `constantOf` looks at it. -/
theorem Cursor.In.leafText {c : Cursor} {source u : Bytes} {s : String} (h : c.In source)
    (kind : Kind) (hs : Solid s.toList) (hr : c.rest = Utf8.bytesOf s ++ u) :
    trimmed (Node.text source (.mk kind c.offset (c.offset + (Utf8.bytesOf s).length) [])) = s := by
  have htext := h.text (i := 0) kind [] hr rfl
  rw [Nat.zero_add, Nat.add_zero] at htext
  rw [htext, trimmed_solid hs]

theorem standsFor_null : StandsFor (Utf8.bytesOf "NULL") .null := by
  intro g source c u scope _ ht hr hu
  have hword : Utf8.bytesOf "NULL" ∈ literalWords := by decide
  refine ⟨_, _, operandWith_word (isWord_literalWord hword).1 ht hr hu (.inr rfl)
    (wordOperand_literalWord hword hr (hu.boundary (isWord_literalWord hword).1.isClosed)), ?_⟩
  rw [if_pos (by decide), constantOf]
  rfl

theorem standsFor_bool (b : Bool) :
    StandsFor (Utf8.bytesOf (if b then "true" else "false")) (.bool b) := by
  intro g source c u scope hin ht hr hu
  have hword : Utf8.bytesOf (if b then "true" else "false") ∈ literalWords := by cases b <;> decide
  have hsolid : Solid (if b then "true" else "false").toList := by
    cases b
    · exact ⟨⟨'f', by decide⟩, 'e', by decide⟩
    · exact ⟨⟨'t', by decide⟩, 'e', by decide⟩
  refine ⟨_, _, operandWith_word (isWord_literalWord hword).1 ht hr hu (.inr rfl)
    (wordOperand_literalWord hword hr (hu.boundary (isWord_literalWord hword).1.isClosed)), ?_⟩
  rw [if_neg (by cases b <;> decide), constantOf]
  rw [hin.leafText .booleanLiteral hsolid hr]
  cases b <;> rfl

/-- Digits stand for the integer that they write, if that is in range. -/
theorem standsFor_digits {s : String} {i : Int64} (hne : Utf8.bytesOf s ≠ [])
    (hd : ∀ b ∈ Utf8.bytesOf s, isDigit b = true)
    (h0 : (Utf8.bytesOf s).head? = some 48 → Utf8.bytesOf s = [48]) (hs : Solid s.toList)
    (hi : Notation.integer? s.toList = some i) : StandsFor (Utf8.bytesOf s) (.int i) := by
  intro g source c u scope hin _ hr hu
  refine ⟨_, _, operandWith_digits hne hd h0 hr hu, ?_⟩
  simp only [Operand.closed, constantOf, hin.leafText .integerLiteral hs hr, hi, Option.map_some,
    Option.getD_some]

/-- A string between single quotes stands for its text. -/
theorem standsFor_quoted {t : Bytes} {s : String} {part : List Char}
    (h : ∀ u, singleQuoted? (t ++ 39 :: u) = some (t.length + 1))
    (hs : Utf8.bytesOf s = 39 :: (t ++ [39])) (hsolid : Solid s.toList)
    (hpart : Notation.string? s.toList = some part) :
    StandsFor (39 :: (t ++ [39])) (.str (String.ofList part)) := by
  intro g source c u scope hin ht hr hu
  refine ⟨_, _, operandWith_quoted (h u) ht hr hu, ?_⟩
  rw [← hs] at hr ⊢
  simp only [Operand.value, constantOf, hin.leafText .plainString hsolid hr, hpart, Option.map_some,
    Option.getD_some]

theorem standsFor_nulText : StandsFor nulText (.str "\x00") := by
  intro g source c u scope hin ht hr hu
  have hsolid : Solid "\"\\0\"".toList := ⟨⟨'"', by decide⟩, '"', by decide⟩
  have hstring : Notation.string? "\"\\0\"".toList = some ['\x00'] := by decide
  refine ⟨_, _, operandWith_nulText ht hin.fits hr hu, ?_⟩
  have htext := hin.leafText (s := "\"\\0\"") .encapsedString hsolid hr
  have hlen : (Utf8.bytesOf "\"\\0\"").length = nulText.length := by decide
  rw [hlen] at htext
  simp only [Operand.value, constantOf, htext, hstring, Option.map_some, Option.getD_some]

/-- A name from the root is the same in every scope. -/
theorem resolve_absolute (scope : NameScope) {c : String} (hc : Solid ('\\' :: c.toList)) :
    scope.resolve ("\\" ++ c) = c := by
  have htrim : trimBlanks ("\\" ++ c).toList = '\\' :: c.toList := by
    rw [String.toList_append]
    exact trimBlanks_solid hc
  unfold NameScope.resolve
  rw [htrim]
  exact String.ofList_toList

theorem classConstant?_absolute (scope : ClassScope) {c n : String} (hc : Solid ('\\' :: c.toList))
    (hn : (lowerCase n == "class") = false) :
    classConstant? scope ("\\" ++ c) n = some (.classConst c n) := by
  have hne : ∀ word : String, word.toList.head? ≠ some '\\' → lowerCase ("\\" ++ c) ≠ word := by
    rintro word hword rfl
    refine hword ?_
    rw [lowerCase, String.toList_ofList, String.toList_append]
    rfl
  unfold classConstant?
  split
  · rename_i h
    exact absurd h (hne _ (by decide))
  · have hself := hne "self" (by decide)
    have hparent := hne "parent" (by decide)
    simp [beq_eq_false_iff_ne.2 hself, beq_eq_false_iff_ne.2 hparent, resolve_absolute scope.names hc, hn]

/-- A constant of a class by its path from the root stands for itself. -/
theorem standsFor_reference {s : Bytes} {names : List Bytes} {c n : String}
    (hpath : Utf8.bytesOf ("\\" ++ c) = pathBytes (s :: names)) (hs : IsName s)
    (hnames : ∀ t ∈ names, IsName t) (hname : IsName (Utf8.bytesOf n)) (hc : Solid ('\\' :: c.toList))
    (hn : (lowerCase n == "class") = false) :
    StandsFor (Utf8.bytesOf ("\\" ++ c ++ "::" ++ n)) (.classConst c n) := by
  intro g source cursor u scope hin ht hr hu
  have hcolons : Utf8.bytesOf "::" = [58, 58] := rfl
  have hr' : cursor.rest = pathBytes (s :: names) ++ 58 :: 58 :: Utf8.bytesOf n ++ u := by
    rw [hr, Utf8.bytesOf_append, Utf8.bytesOf_append, hcolons, hpath]
    simp
  have hclosed : isClosed (Utf8.bytesOf ("\\" ++ c ++ "::" ++ n)) = false := by
    rw [Utf8.bytesOf_append]
    exact isClosed_name hname _
  refine ⟨_, _, operandWith_reference hs hnames hname (hu.boundary hclosed) hu.settled ht hin.fits hr' rfl
    rfl, ?_⟩
  rw [← hpath] at hr' ⊢
  have hqualifier := hin.text (s := "\\" ++ c) (i := 0) .qualifiedName [] (by simpa using hr') rfl
  have hmember := hin.text (s := n) (i := (Utf8.bytesOf ("\\" ++ c)).length + 2) (u := u) .name []
    (by rw [hr', ← List.drop_drop]; simp) rfl
  rw [Nat.zero_add, Nat.add_zero] at hqualifier
  simp only [Operand.value, constantOf, hqualifier, hmember, classConstant?_absolute scope hc hn,
    Option.getD_some]

/-! ## Expressions -/

namespace Written

/-- The constant that an expression stands for if its atoms do, with operators as they are exported. -/
inductive Denotes : Written → Literal → Prop
  | atom {t : Bytes} {v : Literal} : StandsFor t v → Denotes (.atom t) v
  | parenthesized {g k : Bytes} {p : Written} {v : Literal} : Denotes p v →
      Denotes (.parenthesized g p k) v
  | sign {op : Char} {p : Written} {s : String} {v w : Literal} : op = '+' ∨ op = '-' ∨ op = '!' ∨ op = '~' →
      p.text = Utf8.bytesOf s → Denotes p v → signedConstant? (some op) v = some w →
      Denotes (.sign op.toNat.toUInt8 [] p) w
  | binary {o : BinaryOperator} {l r : Written} {a b : Literal} : o ∈ operators → Denotes l a →
      Denotes r b → (a.isExpr && b.isExpr) = false → Denotes (.binary o.mark l r) (.binary o.text a b)

/-- A node that was read from an expression is taken for the constant of the expression. -/
theorem Denotes.constantOf {p : Written} {v : Literal} (h : p.Denotes v) {source : Bytes} {n : Node}
    (hn : n.Spells source p) (scope : ClassScope) : constantOf source scope n = v := by
  induction h generalizing n with
  | atom ht =>
    cases hn with
    | atom place mode rest ends reads =>
      obtain ⟨o', d, hrun, hvalue⟩ := ht scope place mode rest ends
      cases hrun.symm.trans reads
      exact hvalue
  | parenthesized _ ih =>
    cases hn with
    | parenthesized inner =>
      rw [Php.constantOf, ih inner]
      rfl
  | @sign op p s v w hop hs _ hw ih =>
    cases hn with
    | @sign start stop x _ _ _ operand _ covers =>
      have hbytes : Utf8.bytesOf op.toString = [op.toNat.toUInt8] := by
        rcases hop with rfl | rfl | rfl | rfl <;> rfl
      have hblank : isBlank op = false := by rcases hop with rfl | rfl | rfl | rfl <;> rfl
      have htext : Node.text source (.mk .unaryOperation start stop []) = op.toString ++ s := by
        refine Node.text_of_bytes (covers.bytes.trans ?_)
        rw [Written.text, hs, Utf8.bytesOf_append, hbytes]
        rfl
      have hlist : (op.toString ++ s).toList = op :: s.toList := by simp
      have hhead := head?_trimmed hlist hblank
      simp only [Php.constantOf, htext, hhead, ih operand, hw, Option.getD_some]
  | @binary o l r a b ho _ _ hexpr ihl ihr =>
    cases hn with
    | @binary start stop i j x y _ _ _ left right _ between _ _ =>
      have htext : (Node.mk .operator i j []).text source = o.text := Node.text_of_bytes between.bytes
      have hlower : lowerCase o.text = o.text := by
        have hall : ∀ o ∈ operators, lowerCase o.text = o.text := by decide
        exact hall o ho
      simp only [Php.constantOf, ihl left, ihr right, hexpr, Bool.false_eq_true, if_false, htext, hlower,
        Option.getD_some]

end Written

end FacadeStubs.Php
