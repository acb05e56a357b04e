import FacadeStubs.Proofs.Export.Parentheses
import FacadeStubs.Proofs.Names.Written
import FacadeStubs.Proofs.Reader.Objects

/-!
# Operands that are kept as source text

Of the constant expressions of a source, constants without a class and new objects have no value: they
are kept as source text, a constant as it is written and a new object with the path of its class in the
place of its name. Operations on these alone are kept as well.

Results:
* `Node.IsKept.keptOperand`: what such an operand is kept as is one operand again.
* `exists_proper_kept`: so what an operation on such operands is kept as is an expression again.
-/
namespace FacadeStubs

namespace Php

open Lexical Reader Export

/-- A constant as it is written: its name, or its path from the root. -/
inductive IsConstantText : Bytes → Prop
  | name {t : Bytes} : IsConstantName t → IsConstantText t
  | path {s : Bytes} {names : List Bytes} : (∀ t ∈ s :: names, IsName t) →
      IsConstantText (pathBytes (s :: names))

theorem IsConstantText.isAtom {t : Bytes} (h : IsConstantText t) : IsAtom t := by
  cases h with
  | name h => exact isAtom_constantName h
  | path h => exact isAtom_path h

/-- An operand that is kept as source text: a constant, or a new object whose class is a path, made with
no arguments. What stands around the class stays. -/
inductive Node.IsKept (source : Bytes) (scope : ClassScope) : Node → Prop
  | constant {n : Node} {s : String} (kind : n.kind.isName = true) (children : n.children = [])
      (bytes : n.bytes source = Utf8.bytesOf s) (text : IsConstantText (Utf8.bytesOf s))
      (solid : Solid s.toList) (value : (constantOf source scope n).isExpr = true) : IsKept source scope n
  | creation {start stop : Nat} {cls : Node} {args : List Node} {word gap tail : String}
      (kind : cls.kind.isName = true) (none : referencesIn source scope args = [])
      (front : stretch source start cls.start = Utf8.bytesOf (word ++ gap))
      (behind : stretch source cls.stop stop = Utf8.bytesOf tail) (isNew : IsNew (Utf8.bytesOf word))
      (isGap : IsGap (Utf8.bytesOf gap)) (isTail : IsCreationTail (Utf8.bytesOf tail))
      (last : (cls.bytes source).getLast?.any isLabelByte = true)
      (path : IsPath (scope.names.resolve (cls.text source)))
      (solid : Solid (scope.names.resolve (cls.text source)).toList) :
      IsKept source scope (.mk .objectCreation start stop (cls :: args))

/-- The operands of an expression, below its signs, operators and parentheses. -/
def Node.operands : Node → List Node
  | .mk .parenthesized _ _ [x] => x.operands
  | .mk .unaryOperation _ _ [x] => x.operands
  | .mk .binaryOperation _ _ [left, _, right] => left.operands ++ right.operands
  | n => [n]

end Php

namespace Export

open Php Lexical Reader

variable {source : Bytes} {scope : ClassScope} {n : Node}

/-! ## Constants -/

theorem absoluteText_constant (hkind : n.kind.isName = true) (hchildren : n.children = []) {s : String}
    (hbytes : n.bytes source = Utf8.bytesOf s) : absoluteText source scope n = s.toList := by
  obtain ⟨kind, start, stop, children⟩ := n
  obtain rfl : children = [] := hchildren
  have hne : kind ≠ .relativeScope := by
    rintro rfl
    cases hkind
  rw [absoluteText, references_nil hne]
  exact (congrArg Utf8.lossy hbytes).trans (Utf8.lossy_encode s.toList)

/-- A name that is taken for no value is kept as source text. -/
theorem constantOf_name (hkind : n.kind.isName = true) (hexpr : (constantOf source scope n).isExpr = true) :
    constantOf source scope n = .expr (absoluteSource source scope n) := by
  obtain ⟨kind, start, stop, children⟩ := n
  have hnone : ∀ text s, keywordConstant? text ≠ some (.expr s) := by
    intro text s h
    unfold keywordConstant? at h
    split at h <;> cases h
  cases kind <;> cases hkind
  · unfold constantOf at hexpr ⊢
    dsimp only at hexpr ⊢
    cases hword : keywordConstant? (trimmed (Node.text source (.mk .name start stop []))) with
    | none => rfl
    | some v =>
      rw [hword] at hexpr
      cases v with
      | expr s => exact absurd hword (hnone _ _)
      | _ => cases hexpr
  · unfold constantOf
    rfl

/-! ## New objects -/

section
variable {start stop : Nat} {cls : Node} {args : List Node}

theorem constantOf_creation : constantOf source scope (.mk .objectCreation start stop args) =
    .expr (absoluteSource source scope (.mk .objectCreation start stop args)) := by
  unfold constantOf
  rfl

theorem solid_new {word : String} (h : IsNew (Utf8.bytesOf word)) : Solid word.toList := by
  have hletters : ∀ w ∈ spellings [110, 101, 119], w ≠ [] ∧ w.all isLetter = true := by decide
  obtain ⟨hne, hall⟩ := hletters _ h
  refine solid_of_all (fun hnil => hne (by rw [Utf8.bytesOf, hnil]; rfl)) fun c hc => ?_
  obtain ⟨b, hb⟩ := List.exists_mem_of_ne_nil _ (String.utf8EncodeChar_ne_nil (c := c))
  have hletter : isLetter b = true := List.all_eq_true.1 hall b (List.mem_flatMap.2 ⟨c, hc, hb⟩)
  have hrange : 64 < b.toNat ∧ b.toNat < 128 := by
    simp only [isLetter, Bool.or_eq_true, Bool.and_eq_true, decide_eq_true_eq, beq_iff_eq,
      UInt8.le_iff_toNat_le, ← UInt8.toNat_inj, UInt8.toNat_ofNat] at hletter
    omega
  have hcode := Utf8.toNat_of_mem_utf8EncodeChar hb (UInt8.lt_iff_toNat_lt.2 hrange.2)
  simp only [isBlank, Bool.or_eq_false_iff, Bool.and_eq_false_iff, decide_eq_false_iff_not,
    beq_eq_false_iff_ne]
  omega

/-- Parentheses end a text. -/
theorem solid_tail {s : List Char} {tail : String} (hs : Solid s) (h : IsCreationTail (Utf8.bytesOf tail)) :
    Solid (s ++ tail.toList) := by
  generalize hbytes : Utf8.bytesOf tail = t at h
  cases h with
  | none =>
    obtain rfl : tail = "" := Utf8.bytesOf_inj (t := "") hbytes
    simpa using hs
  | @parentheses g k hg hk =>
    have htext : tail.toList = Utf8.lossy ((g ++ 40 :: k) ++ [41]) := by
      rw [← Utf8.lossy_encode tail.toList]
      exact congrArg Utf8.lossy (hbytes.trans (by simp))
    have hend : Utf8.lossy ((g ++ 40 :: k) ++ [41]) = Utf8.lossy (g ++ 40 :: k) ++ [')'] :=
      Utf8.lossy_append _ (by simp; decide)
    rw [htext, hend]
    exact hs.append (solid_mark (by decide)) _

/-- The class of a new object is replaced by its path. -/
theorem absoluteText_creation {front tail : String} (hkind : cls.kind.isName = true)
    (hargs : referencesIn source scope args = [])
    (hfront : stretch source start cls.start = Utf8.bytesOf front)
    (hbehind : stretch source cls.stop stop = Utf8.bytesOf tail) :
    absoluteText source scope (.mk .objectCreation start stop (cls :: args)) =
      (front ++ ("\\" ++ scope.names.resolve (cls.text source)) ++ tail).toList := by
  have hreferences : references source scope (.mk .objectCreation start stop (cls :: args)) =
      [⟨cls.start, cls.stop, "\\" ++ scope.names.resolve (cls.text source)⟩] := by
    rw [references_cons (by decide), if_pos (by simp [Kind.namesClass, hkind]), hargs, List.append_nil]
  have htext : ∀ {lo hi : Nat} {s : String}, stretch source lo hi = Utf8.bytesOf s →
      sliceText source lo hi = s.toList := fun h =>
    (congrArg Utf8.lossy h).trans (Utf8.lossy_encode _)
  have hslices : replaced source stop start
      [⟨cls.start, cls.stop, "\\" ++ scope.names.resolve (cls.text source)⟩] =
        sliceText source start cls.start ++ ("\\" ++ scope.names.resolve (cls.text source)).toList ++
          sliceText source cls.stop stop := rfl
  rw [absoluteText, hreferences]
  refine hslices.trans ?_
  rw [htext hfront, htext hbehind]
  simp

/-- The class between what stands in front of it and behind it. -/
theorem bytes_creation {front tail : String} (ho : (Node.mk .objectCreation start stop (cls :: args)).IsOrderly)
    (hfront : stretch source start cls.start = Utf8.bytesOf front)
    (hbehind : stretch source cls.stop stop = Utf8.bytesOf tail) :
    (Node.mk .objectCreation start stop (cls :: args)).bytes source =
      Utf8.bytesOf front ++ (cls.bytes source ++ Utf8.bytesOf tail) := by
  obtain ⟨hstart, hcls, hargs⟩ := inOrder_cons.1 (Node.isOrderly_iff.1 ho)
  have hstop : cls.stop ≤ stop := hargs.le
  have hsource : stretch source start stop =
      stretch source start cls.start ++ (stretch source cls.start cls.stop ++ stretch source cls.stop stop) := by
    unfold stretch
    rw [take_drop_append source hcls.le hstop]
    exact (take_drop_append source hstart (hcls.le.trans hstop)).symm
  refine hsource.trans ?_
  rw [hfront, hbehind]
  rfl

/-- A new object is kept with the path of its class. -/
theorem kept_creation {word gap tail : String} {path : Bytes} (hkind : cls.kind.isName = true)
    (hargs : referencesIn source scope args = [])
    (hfront : stretch source start cls.start = Utf8.bytesOf (word ++ gap))
    (hbehind : stretch source cls.stop stop = Utf8.bytesOf tail)
    (hpath : Utf8.bytesOf ("\\" ++ scope.names.resolve (cls.text source)) = path) :
    Utf8.bytesOf (String.ofList (absoluteText source scope (.mk .objectCreation start stop (cls :: args)))) =
      Utf8.bytesOf word ++ (Utf8.bytesOf gap ++ (path ++ Utf8.bytesOf tail)) := by
  rw [absoluteText_creation hkind hargs hfront hbehind, String.ofList_toList, Utf8.bytesOf_append,
    Utf8.bytesOf_append, Utf8.bytesOf_append, hpath]
  simp only [List.append_assoc]

theorem solid_creation {word gap tail : String} (hkind : cls.kind.isName = true)
    (hargs : referencesIn source scope args = [])
    (hfront : stretch source start cls.start = Utf8.bytesOf (word ++ gap))
    (hbehind : stretch source cls.stop stop = Utf8.bytesOf tail) (hnew : IsNew (Utf8.bytesOf word))
    (htail : IsCreationTail (Utf8.bytesOf tail))
    (hsolid : Solid (scope.names.resolve (cls.text source)).toList) :
    Solid (absoluteText source scope (.mk .objectCreation start stop (cls :: args))) := by
  have hrooted : Solid ("\\" ++ scope.names.resolve (cls.text source)).toList := by
    rw [String.toList_append]
    exact solid_rooted hsolid
  rw [absoluteText_creation hkind hargs hfront hbehind, String.toList_append]
  refine solid_tail ?_ htail
  rw [String.toList_append, String.toList_append, List.append_assoc]
  exact (solid_new hnew).append hrooted _

end

/-! ## Operands -/

theorem isClosed_of_label {t : Bytes} (h : t.getLast?.any isLabelByte = true) (s : Bytes) :
    isClosed (s ++ t) = false := by
  cases hlast : t.getLast? with
  | none =>
    rw [hlast] at h
    cases h
  | some b =>
    have hlabel : isLabelByte b = true := by rwa [hlast] at h
    rw [isClosed, List.getLast?_append, hlast, Option.some_or, Option.any_some]
    by_contra hsign
    simp only [Bool.not_eq_false, Bool.or_eq_true, beq_iff_eq] at hsign
    rcases hsign with ((rfl | rfl) | rfl) | rfl <;> cases hlabel

theorem isClosed_parenthesis (t : Bytes) : isClosed (t ++ [41]) = true := by simp [isClosed]

end Export

namespace Php.Node.IsKept

open Export

variable {source : Bytes} {scope : ClassScope} {n : Node}

/-- What an operand is kept as is one operand, which begins and ends as the source does. -/
theorem keptOperand (h : n.IsKept source scope) (ho : n.IsOrderly) :
    KeptOperand (n.bytes source) (String.ofList (absoluteText source scope n)) ∧
      constantOf source scope n = .expr (String.ofList (absoluteText source scope n)) := by
  have hkeeps : ∀ {n : Node}, constantOf source scope n = .expr (absoluteSource source scope n) →
      Solid (absoluteText source scope n) →
      constantOf source scope n = .expr (String.ofList (absoluteText source scope n)) := by
    intro n hconst hsolid
    rw [hconst]
    exact congrArg (fun t => Literal.expr (String.ofList t)) (trimBlanks_solid hsolid)
  cases h with
  | constant kind children bytes text solid value =>
    have habsolute : absoluteText source scope n = _ := absoluteText_constant kind children bytes
    refine ⟨?_, hkeeps (constantOf_name kind value) (by rwa [habsolute])⟩
    rw [habsolute, String.ofList_toList, bytes]
    exact keptOperand_self solid text.isAtom
  | @creation start stop cls args word gap tail kind none front behind isNew isGap isTail last path solid =>
    obtain ⟨first, names, hpath, hnames⟩ := path
    have hbytes := bytes_creation ho front behind
    have hkept := kept_creation kind none front behind hpath
    have hsolid := solid_creation kind none front behind isNew isTail solid
    have hne : Utf8.bytesOf word ≠ [] := isNew.isWord.1.1.1
    rw [Utf8.bytesOf_append, List.append_assoc] at hbytes
    refine ⟨⟨by rwa [String.toList_ofList], ?_, .inl ?_, fun hclosed => ?_⟩, hkeeps constantOf_creation hsolid⟩
    · rw [hkept]
      exact isAtom_creation isNew isGap hnames isTail
    · rw [hkept, hbytes, head?_append_of_ne_nil hne, head?_append_of_ne_nil hne]
    · rw [hkept]
      rw [hbytes] at hclosed
      generalize Utf8.bytesOf tail = t at isTail hclosed
      cases isTail with
      | none =>
        have hopen := isClosed_of_label last (Utf8.bytesOf word ++ Utf8.bytesOf gap)
        rw [List.append_nil, ← List.append_assoc, hopen] at hclosed
        cases hclosed
      | @parentheses g k hg hk =>
        have hend := isClosed_parenthesis
          (Utf8.bytesOf word ++ (Utf8.bytesOf gap ++ (pathBytes (first :: names) ++ (g ++ 40 :: k))))
        simpa using hend

end Php.Node.IsKept

namespace Export.SourceExpr

open Php

variable {source : Bytes} {scope : ClassScope} {n : Node}

/-! ## Operations -/

/-- An expression all operands of which are kept is one of kept operands. -/
theorem isKept_ofNode (ho : n.IsOrderly) (h : ∀ m ∈ n.operands, m.IsKept source scope) :
    (ofNode source scope n).IsKept := by
  fun_induction ofNode source scope n with
  | case1 start stop x ih =>
    rw [Node.operands] at h
    exact ih ((Node.isOrderly_iff.1 ho).isOrderly List.mem_cons_self) h
  | case2 start stop x ih =>
    rw [Node.operands] at h
    exact ih ((Node.isOrderly_iff.1 ho).isOrderly List.mem_cons_self) h
  | case3 start stop left op right ihl ihr =>
    rw [Node.operands] at h
    have horder := Node.isOrderly_iff.1 ho
    exact ⟨ihl (horder.isOrderly List.mem_cons_self) fun m hm => h m (List.mem_append_left _ hm),
      ihr (horder.isOrderly (List.mem_cons_of_mem _ (List.mem_cons_of_mem _ List.mem_cons_self)))
        fun m hm => h m (List.mem_append_right _ hm)⟩
  | case4 n hparen hsign hbinary =>
    have hself : n.operands = [n] := by
      unfold Node.operands
      split
      · exact absurd rfl (hparen _ _ _)
      · exact absurd rfl (hsign _ _ _)
      · exact absurd rfl (hbinary _ _ _ _ _)
      · rfl
    rw [hself] at h
    obtain ⟨hkept, hvalue⟩ := (h n List.mem_cons_self).keptOperand ho
    exact ⟨hvalue, hkept⟩

theorem leaves_of_isKept (index : ClassIndex) (budget : Nat) : ∀ {e : SourceExpr}, e.IsKept →
    e.Leaves index budget
  | leaf _ _ _ _, h => .inl h
  | parenthesized _ x _, h => leaves_of_isKept index budget (e := x) h
  | sign _ _ _ x, h => leaves_of_isKept index budget (e := x) h
  | binary _ _ _ _, h => ⟨leaves_of_isKept index budget h.1, leaves_of_isKept index budget h.2⟩

theorem isExpr_of_isKept {index : ClassIndex} {budget : Nat} : ∀ {e : SourceExpr},
    e.Exportable index budget → e.IsKept → e.constant.isExpr = true
  | leaf _ _ _ _, _, h => by
    obtain ⟨rfl, -⟩ := h
    rfl
  | parenthesized _ x _, he, h => isExpr_of_isKept (e := x) he h
  | sign _ g s x, he, h => by
    rw [isExpr_sign g s x he.1]
    exact isExpr_of_isKept he.2.1 h
  | binary m s l r, he, h => by
    rw [isExpr_binary, isExpr_of_isKept he.2.1 h.1, isExpr_of_isKept he.2.2.1 h.2]
    rfl

/-- What an operation on kept operands is kept as is an expression again. -/
theorem exists_proper_kept {p : Written} (hn : n.WrittenAs source p) (hp : p.Formed) (ht : p.IsText)
    (ho : n.IsOrderly) (h : ∀ m ∈ n.operands, m.IsKept source scope) :
    ∃ (s : String) (w : Written), constantOf source scope n = .expr s ∧ w.Proper ∧
      w.text = Utf8.bytesOf s := by
  have hkept := isKept_ofNode ho h
  have hexportable := exportable_ofNode hn hp ht ho (leaves_of_isKept {} 0 hkept)
  have hwritten : (ofNode source scope n).written = p := by rw [written_ofNode, hn.ofNode hp]
  have hwrites := writes_exported (hwritten ▸ hp) hexportable
  have hexpr := isExpr_of_isKept hexportable hkept
  rw [constant_ofNode hn hp ht] at hwrites hexpr
  generalize constantOf source scope n = v at hwrites hexpr
  generalize (ofNode source scope n).exported {} 0 = w at hwrites
  cases v with
  | expr s =>
    cases hwrites with
    | source hw htext => exact ⟨s, w, rfl, hw, htext⟩
    | scalar ht => cases ht
    | unfollowed hv _ _ => cases hv
  | _ => cases hexpr

end Export.SourceExpr

end FacadeStubs
