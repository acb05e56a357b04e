import FacadeStubs.Proofs.Facts.Placement
import FacadeStubs.Proofs.Layout.Statements
import FacadeStubs.Proofs.Reader.Constants

/-!
# Class words of verbatim expressions

An expression that is kept as source text leaves its class, and the words in it that name a class have to
name the same class elsewhere. These words are the names and relative keywords in front of a double colon
and the names behind `new` (`Node.classWords`), at any depth of the expression.

What takes their place is decided word by word (`ClassWord.replacement?`). A plain word stands as the full
name of its class. Not plain are relative keywords that are read as names, such as `self` behind `new` and
`SELF` anywhere, and names that a stretch outside the tags parts from their `new`.

Results:
* `references_eq_classWords`: what is replaced in an expression is what its class words say.
* `Node.IsOrderly.classWords`: class words stand one behind the other inside the expression.
* `replaced_split`: a text with replacements is in three parts around each of them.
* `class_words_absolute`: in every expression of a source that is kept as source text, each plain class
  word stands as the full name of the class that it names.
* `self_behind_new_misnamed`: an expression `new self()` that names another class.
-/
namespace FacadeStubs.Php

open Lexical Reader

/-! ## Parentheses -/

namespace Node

/-- An expression without the parentheses around it. -/
def bare : Node → Node
  | .mk .parenthesized _ _ (held :: _) => held.bare
  | n => n

theorem bare_mem_parts (n : Node) : n.bare ∈ n.parts := by
  fun_induction bare n with
  | case1 start stop held rest ih =>
    rw [parts, partsIn]
    exact List.mem_cons_of_mem _ (List.mem_append_left _ ih)
  | case2 n hbare =>
    obtain ⟨kind, start, stop, children⟩ := n
    rw [parts]
    exact List.mem_cons_self

end Node

/-! ## Class words -/

/-- A word of an expression that names a class. -/
structure ClassWord where
  node : Node
  /-- Whether a stretch outside the tags stands between the word and the `new` in front of it. -/
  detached : Bool

mutual

/-- The words in an expression that name a class, in document order: the names and relative keywords in
front of a double colon and the names behind `new`, at any depth. -/
def Node.classWords : Node → List ClassWord
  | .mk .relativeScope start stop below => [⟨.mk .relativeScope start stop below, false⟩]
  | .mk kind _ _ children => classWordsIn kind.namesClass false children

/-- The class words of nodes that stand side by side. With `heads` the first node that is no stretch
outside the tags names a class if it is a name; there is nothing below a name that is replaced. -/
def classWordsIn (heads detached : Bool) : List Node → List ClassWord
  | [] => []
  | n :: rest =>
    if heads && !detached && n.kind.isName then ⟨n, false⟩ :: classWordsIn false false rest
    else (if heads && n.kind.isName then [⟨n, true⟩] else []) ++ n.classWords ++
      classWordsIn (heads && n.kind == .interpolation) true rest

end

namespace ClassWord

variable {source : Bytes} {scope : ClassScope} {w : ClassWord} {cls : String}

/-- The text of a class word. -/
def text (source : Bytes) (w : ClassWord) : String := w.node.text source

/-- The text that takes the place of a word. -/
def put (w : ClassWord) (text : String) : Replacement := ⟨w.node.start, w.node.stop, text⟩

/-- What takes the place of a word in source text that leaves its class. -/
def replacement? (source : Bytes) (scope : ClassScope) (w : ClassWord) : Option Replacement :=
  if w.detached then none
  else if w.node.kind == .relativeScope then
    (scope.relative? (w.text source)).map fun cls => w.put ("\\" ++ cls)
  else some (w.put ("\\" ++ scope.names.resolve (w.text source)))

end ClassWord

/-- The words that name a class by the place where they stand. -/
def relativeScopeWords : List String := ["self", "static", "parent"]

/-- The class that a word names: the class itself, its parent if it has one, or what the name stands
for. -/
def ClassScope.meaning? (scope : ClassScope) (word : String) : Option String :=
  if relativeScopeWords.contains (lowerCase word) then scope.relative? word
  else some (scope.names.resolve word)

namespace ClassWord

variable {source : Bytes} {scope : ClassScope} {w : ClassWord} {cls : String}

/-- A relative keyword that is read as one, or a name that is none and stands right behind its `new`. -/
structure IsPlain (source : Bytes) (w : ClassWord) : Prop where
  attached : w.detached = false
  keyword : w.node.kind = .relativeScope ↔ lowerCase (w.text source) ∈ relativeScopeWords

/-- A plain word that names a class is replaced by the full name of the class. -/
theorem replacement?_plain (hw : w.IsPlain source) (hcls : scope.meaning? (w.text source) = some cls) :
    w.replacement? source scope = some (w.put ("\\" ++ cls)) := by
  unfold replacement?
  rw [hw.attached, if_neg Bool.false_ne_true]
  by_cases hkind : w.node.kind = .relativeScope
  · have hword := List.contains_iff_mem.2 (hw.keyword.1 hkind)
    rw [ClassScope.meaning?, if_pos hword] at hcls
    rw [if_pos (beq_iff_eq.2 hkind), hcls, Option.map_some]
  · have hword : ¬relativeScopeWords.contains (lowerCase (w.text source)) = true :=
      fun h => hkind (hw.keyword.2 (List.contains_iff_mem.1 h))
    rw [ClassScope.meaning?, if_neg hword] at hcls
    rw [if_neg (fun h => hkind (beq_iff_eq.1 h)), Option.some.inj hcls]

/-- What takes the place of a word stands where the word stands. -/
theorem place_of_replacement? {r : Replacement} (h : w.replacement? source scope = some r) :
    r.start = w.node.start ∧ r.stop = w.node.stop := by
  unfold replacement? at h
  split at h
  · cases h
  · split at h
    · obtain ⟨cls, -, rfl⟩ := Option.map_eq_some_iff.1 h
      exact ⟨rfl, rfl⟩
    · cases h
      exact ⟨rfl, rfl⟩

end ClassWord

section
variable (source : Bytes) (scope : ClassScope)

/-- The replacements of some class words. -/
def replacements (ws : List ClassWord) : List Replacement :=
  ws.filterMap (ClassWord.replacement? source scope)

variable {source scope} in
theorem replacements_append (ws vs : List ClassWord) : replacements source scope (ws ++ vs) =
    replacements source scope ws ++ replacements source scope vs := List.filterMap_append

/-- What takes the place of a name at the head of a node. -/
theorem replacements_name {n : Node} (hn : n.kind.isName = true) (ws : List ClassWord) :
    replacements source scope (⟨n, false⟩ :: ws) =
      ⟨n.start, n.stop, "\\" ++ scope.names.resolve (n.text source)⟩ :: replacements source scope ws := by
  have hkind : (n.kind == Kind.relativeScope) = false := by
    cases hk : n.kind <;> simp_all [Kind.isName]
  have hword : (⟨n, false⟩ : ClassWord).replacement? source scope =
      some ⟨n.start, n.stop, "\\" ++ scope.names.resolve (n.text source)⟩ := by
    unfold ClassWord.replacement?
    rw [if_neg Bool.false_ne_true, hkind, if_neg Bool.false_ne_true]
    rfl
  exact List.filterMap_cons_some hword

/-- What takes the place of a relative keyword. -/
theorem references_relativeScope (start stop : Nat) (below : List Node) :
    references source scope (.mk .relativeScope start stop below) =
      replacements source scope [⟨.mk .relativeScope start stop below, false⟩] := by
  have hword : (⟨.mk .relativeScope start stop below, false⟩ : ClassWord).replacement? source scope =
      (scope.relative? (Node.text source (.mk .relativeScope start stop []))).map fun cls =>
        ⟨start, stop, "\\" ++ cls⟩ := rfl
  rw [references, replacements]
  cases hcls : scope.relative? (Node.text source (.mk .relativeScope start stop [])) with
  | none =>
    rw [hcls] at hword
    exact (List.filterMap_cons_none hword : List.filterMap _ [_] = []).symm
  | some cls =>
    rw [hcls] at hword
    exact (List.filterMap_cons_some hword : List.filterMap _ [_] = [_]).symm

mutual

/-- What is replaced in an expression is what its class words say. -/
theorem references_eq_classWords : ∀ n : Node,
    references source scope n = replacements source scope n.classWords
  | .mk kind start stop children => by
    by_cases hkind : kind = .relativeScope
    · subst hkind
      rw [references_relativeScope, Node.classWords]
    rw [Node.classWords]
    swap
    · exact hkind
    cases children with
    | nil => exact references_nil hkind source scope start stop
    | cons first rest =>
      have hrest := referencesIn_eq_classWords rest
      rw [references_cons hkind, classWordsIn, Bool.not_false, Bool.and_true]
      by_cases hname : (kind.namesClass && first.kind.isName) = true
      · rw [if_pos hname, if_pos hname, hrest false false rfl, replacements_name]
        · rfl
        · exact (Bool.and_eq_true_iff.1 hname).2
      · rw [if_neg hname, if_neg hname, if_neg hname, references_eq_classWords first,
          hrest _ true (Bool.and_false _), List.nil_append, replacements_append]

theorem referencesIn_eq_classWords : ∀ ns : List Node, ∀ heads detached : Bool,
    (heads && !detached) = false →
      referencesIn source scope ns = replacements source scope (classWordsIn heads detached ns)
  | [], _, _, _ => rfl
  | n :: rest, heads, detached, hnone => by
    have hskipped : replacements source scope
        (if heads && n.kind.isName then [⟨n, true⟩] else []) = [] := by split <;> rfl
    rw [referencesIn, classWordsIn, hnone, Bool.false_and, if_neg Bool.false_ne_true,
      replacements_append, replacements_append, hskipped, List.nil_append,
      references_eq_classWords n, referencesIn_eq_classWords rest _ true (Bool.and_false _)]

end

end

/-! ## Places of class words -/

/-- The nodes of the words that may be replaced. -/
def attachedNodes (ws : List ClassWord) : List Node :=
  (ws.filter fun w => !w.detached).map ClassWord.node

theorem attachedNodes_append (ws vs : List ClassWord) :
    attachedNodes (ws ++ vs) = attachedNodes ws ++ attachedNodes vs := by
  rw [attachedNodes, List.filter_append, List.map_append]
  rfl

mutual

/-- The class words of an expression stand one behind the other inside it. -/
theorem Node.IsOrderly.classWords : ∀ {n : Node}, n.IsOrderly →
    InOrder n.start n.stop (attachedNodes n.classWords)
  | .mk kind start stop children, h => by
    by_cases hkind : kind = .relativeScope
    · subst hkind
      rw [Node.classWords]
      exact inOrder_singleton.2 ⟨Nat.le_refl _, h, Nat.le_refl _⟩
    rw [Node.classWords]
    swap
    · exact hkind
    rw [Node.IsOrderly] at h
    exact InOrder.classWordsIn h

theorem InOrder.classWordsIn : ∀ {ns : List Node} {heads detached : Bool} {lo hi : Nat},
    InOrder lo hi ns → InOrder lo hi (attachedNodes (classWordsIn heads detached ns))
  | [], _, _, _, _, h => h
  | n :: rest, heads, detached, lo, hi, h => by
    obtain ⟨hstart, hn, hrest⟩ := inOrder_cons.1 h
    rw [Php.classWordsIn]
    split
    · exact inOrder_cons.2 ⟨hstart, hn, InOrder.classWordsIn hrest⟩
    · have hdetached : attachedNodes (if heads && n.kind.isName then [⟨n, true⟩] else []) = [] := by
        split <;> rfl
      rw [attachedNodes_append, attachedNodes_append, hdetached, List.nil_append]
      exact (hn.classWords.mono hstart (Nat.le_refl _)).append (InOrder.classWordsIn hrest)

end

/-- What stands in front of a node in a row ends before it, and what stands behind begins after it. -/
theorem InOrder.around {lo hi : Nat} {n : Node} {ns ms : List Node} (h : InOrder lo hi (ns ++ n :: ms)) :
    lo ≤ n.start ∧ n.stop ≤ hi ∧ (∀ m ∈ ns, lo ≤ m.start ∧ m.stop ≤ n.start) ∧
      ∀ m ∈ ms, n.stop ≤ m.start ∧ m.stop ≤ hi := by
  have hpair : ∀ {ks : List Node}, ks.Sublist (ns ++ n :: ms) → InOrder lo hi ks := fun hks => h.sublist hks
  obtain ⟨hstart, -, hstop⟩ := inOrder_singleton.1
    (hpair ((List.singleton_sublist.2 List.mem_cons_self).trans (List.sublist_append_right ns _)))
  refine ⟨hstart, hstop, fun m hm => ?_, fun m hm => ?_⟩
  · have hmn : InOrder lo hi ([m] ++ [n]) := hpair ((List.singleton_sublist.2 hm).append
      (List.singleton_sublist.2 List.mem_cons_self))
    obtain ⟨hm, -, hrest⟩ := inOrder_cons.1 hmn
    exact ⟨hm, (inOrder_singleton.1 hrest).1⟩
  · have hnm : InOrder lo hi [n, m] := hpair (((List.singleton_sublist.2 hm).cons_cons n).trans
      (List.sublist_append_right ns _))
    obtain ⟨-, -, hrest⟩ := inOrder_cons.1 hnm
    obtain ⟨hm, -, hstop⟩ := inOrder_singleton.1 hrest
    exact ⟨hm, hstop⟩

/-! ## Texts with replacements -/

section
variable {source : Bytes} {scope : ClassScope}

/-- A text with replacements is in three parts around each of them. -/
theorem replaced_split (stop : Nat) (r : Replacement) (after : List Replacement) :
    ∀ (start : Nat) (before : List Replacement),
      replaced source stop start (before ++ r :: after) =
        replaced source r.start start before ++ (r.text.toList ++ replaced source stop r.stop after)
  | start, [] => by rw [List.nil_append, replaced, replaced, List.append_assoc]
  | start, q :: before => by
    rw [List.cons_append, replaced, replaced, replaced_split stop r after q.stop before]
    simp only [List.append_assoc]

/-- What takes the place of one of some words stands where an attached one does. -/
theorem exists_of_mem_replacements {ws : List ClassWord} {r : Replacement}
    (hr : r ∈ replacements source scope ws) :
    ∃ m ∈ attachedNodes ws, r.start = m.start ∧ r.stop = m.stop := by
  obtain ⟨w, hw, hr⟩ := List.mem_filterMap.1 hr
  have hattached : (!w.detached) = true := by
    cases hd : w.detached with
    | false => rfl
    | true =>
      rw [ClassWord.replacement?, if_pos hd] at hr
      cases hr
  exact ⟨w.node, List.mem_map_of_mem (List.mem_filter.2 ⟨hw, hattached⟩),
    ClassWord.place_of_replacement? hr⟩

end

/-! ## Verbatim expressions -/

/-- Source text is what is left where there is no other value. -/
theorem eq_of_getD_expr {value? : Option Literal} {kept text : String}
    (h : value?.getD (.expr kept) = .expr text) (hvalue : ∀ v ∈ value?, v.isExpr = false) :
    text = kept := by
  cases value? with
  | none => exact (Literal.expr.inj h).symm
  | some v =>
    have hexpr := hvalue v rfl
    rw [Option.getD_some] at h
    rw [h] at hexpr
    cases hexpr

theorem isExpr_of_map {α : Type} {f : α → Literal} {value? : Option α}
    (hf : ∀ a, (f a).isExpr = false) : ∀ v ∈ value?.map f, v.isExpr = false := by
  intro v hv
  obtain ⟨a, -, rfl⟩ := Option.map_eq_some_iff.1 hv
  exact hf a

theorem isExpr_of_signedConstant? {sign : Option Char} {operand : Literal} :
    ∀ v ∈ signedConstant? sign operand, v.isExpr = false := by
  intro v hv
  unfold signedConstant? at hv
  split at hv
  · exact isExpr_of_map (fun _ => rfl) v hv
  · cases hv
    rfl
  · cases hv
    rfl
  · cases hv
    rfl
  · cases hv
  · split at hv
    · cases hv
      rfl
    · cases hv
  · cases hv

theorem isExpr_of_classConstant? {scope : ClassScope} {qualifier member : String} :
    ∀ v ∈ classConstant? scope qualifier member, v.isExpr = false := by
  intro v hv
  unfold classConstant? at hv
  split at hv
  · cases hv
    rfl
  · refine isExpr_of_map (fun cls => ?_) v hv
    split <;> rfl

theorem isExpr_of_keywordConstant? {name : String} :
    ∀ v ∈ keywordConstant? name, v.isExpr = false := by
  intro v hv
  unfold keywordConstant? at hv
  split at hv
  · cases hv
    rfl
  · cases hv
    rfl
  · cases hv
    rfl
  · cases hv

/-- An expression that is kept as source text is kept without the parentheses around it. -/
theorem eq_of_constantOf_expr {source : Bytes} {scope : ClassScope} {text : String} {n : Node}
    (h : constantOf source scope n = .expr text) : text = absoluteSource source scope n.bare := by
  fun_induction Node.bare n with
  | case1 start stop held rest ih => exact ih h
  | case2 n hbare =>
    obtain ⟨kind, start, stop, children⟩ := n
    rw [constantOf.eq_def] at h
    dsimp only at h
    split at h
    · exact eq_of_getD_expr h (by simp [Literal.isExpr])
    · exact eq_of_getD_expr h (by simp [Literal.isExpr])
    · exact eq_of_getD_expr h (isExpr_of_map fun _ => rfl)
    · exact eq_of_getD_expr h (isExpr_of_map fun _ => rfl)
    · exact eq_of_getD_expr h (isExpr_of_map fun _ => rfl)
    · exact eq_of_getD_expr h (isExpr_of_map fun _ => rfl)
    · exact eq_of_getD_expr h isExpr_of_keywordConstant?
    · exact (hbare _ _ _ _ rfl).elim
    · exact eq_of_getD_expr h isExpr_of_signedConstant?
    · refine eq_of_getD_expr h fun v hv => ?_
      split at hv
      · cases hv
      · cases hv
        rfl
    · exact eq_of_getD_expr h (isExpr_of_map fun _ => rfl)
    · exact eq_of_getD_expr h (isExpr_of_map fun _ => rfl)
    · exact eq_of_getD_expr h isExpr_of_classConstant?
    · exact eq_of_getD_expr h (by simp)

/-- At its place in the text of an expression, a word stands as another text: what is in front of it and
what is behind it are the source there, with their own replacements. -/
structure ClassWord.ShownAs (source : Bytes) (scope : ClassScope) (n : Node) (w : ClassWord)
    (shown text : String) (before after : List Replacement) : Prop where
  replacements : references source scope n = before ++ w.put shown :: after
  parts : text = String.ofList (trimBlanks (replaced source w.node.start n.start before ++
    (shown.toList ++ replaced source n.stop w.node.stop after)))
  within : n.start ≤ w.node.start ∧ w.node.stop ≤ n.stop
  before : ∀ r ∈ before, n.start ≤ r.start ∧ r.stop ≤ w.node.start
  after : ∀ r ∈ after, w.node.stop ≤ r.start ∧ r.stop ≤ n.stop

/-- A plain class word stands as the full name of its class. -/
theorem exists_shownAs {source : Bytes} {scope : ClassScope} {n : Node} {w : ClassWord} {cls : String}
    (hn : n.IsOrderly) (hw : w ∈ n.classWords) (hplain : w.IsPlain source)
    (hcls : scope.meaning? (w.text source) = some cls) :
    ∃ before after, w.ShownAs source scope n ("\\" ++ cls) (absoluteSource source scope n) before after := by
  obtain ⟨ws, vs, hsplit⟩ := List.append_of_mem hw
  have hreferences : references source scope n =
      replacements source scope ws ++ w.put ("\\" ++ cls) :: replacements source scope vs := by
    have hword := w.replacement?_plain hplain hcls
    rw [references_eq_classWords, hsplit, replacements_append]
    exact congrArg _ (List.filterMap_cons_some hword)
  have horder : InOrder n.start n.stop (attachedNodes ws ++ w.node :: attachedNodes vs) := by
    have hnodes : attachedNodes n.classWords = attachedNodes ws ++ w.node :: attachedNodes vs := by
      rw [hsplit, attachedNodes_append]
      simp [attachedNodes, hplain.attached]
    exact hnodes ▸ hn.classWords
  obtain ⟨hstart, hstop, hbefore, hafter⟩ := horder.around
  refine ⟨_, _, hreferences, ?_, ⟨hstart, hstop⟩, fun r hr => ?_, fun r hr => ?_⟩
  · rw [absoluteSource, hreferences, replaced_split]
    rfl
  · obtain ⟨m, hm, hfrom, hto⟩ := exists_of_mem_replacements hr
    rw [hfrom, hto]
    exact hbefore m hm
  · obtain ⟨m, hm, hfrom, hto⟩ := exists_of_mem_replacements hr
    rw [hfrom, hto]
    exact hafter m hm

/-- In every expression of a source that is kept as source text, in every scope: what is replaced is what
the class words say, one behind the other; and each plain class word that names a class stands as the full
name of the class, which is the same in every scope. -/
theorem class_words_absolute {source : Bytes} {tree : Node} (h : parse? source = some tree) {n : Node}
    (hn : n ∈ tree.parts) {scope : ClassScope} {text : String}
    (hexpr : constantOf source scope n = .expr text) :
    references source scope n.bare = replacements source scope n.bare.classWords ∧
    InOrder n.bare.start n.bare.stop (attachedNodes n.bare.classWords) ∧
    ∀ w ∈ n.bare.classWords, w.IsPlain source → ∀ cls, scope.meaning? (w.text source) = some cls →
      (∃ before after, w.ShownAs source scope n.bare ("\\" ++ cls) text before after) ∧
      ∀ names : NameScope, Solid ('\\' :: cls.toList) → names.resolve ("\\" ++ cls) = cls := by
  have horderly : n.bare.IsOrderly := ((isOrderly_of_parse? h).parts n hn).parts _ n.bare_mem_parts
  obtain rfl := eq_of_constantOf_expr hexpr
  refine ⟨references_eq_classWords source scope _, horderly.classWords, fun w hw hplain cls hcls => ?_⟩
  exact ⟨exists_shownAs horderly hw hplain hcls, fun names hsolid => resolve_absolute names hsolid⟩

/-- A class whose method makes an object by default, with other classes in the arguments. -/
def objectSource : Bytes := Utf8.bytesOf ("<?php namespace N; use A\\B; class C extends D" ++
  "\x7bfunction f($x = new B(self::X, E\\F::m(static::$v), parent::K))\x7b\x7d\x7d")

/-- The names in that class. -/
def objectScope : ClassScope :=
  { names := { namespaceName := some "N", imports := [("b", "A\\B")] }
    cls := "N\\C"
    parent := some "N\\D" }

def objectTree : Node := (parse? objectSource).getD default

/-- The first new object of a tree. -/
def firstObject (tree : Node) : Node :=
  (tree.parts.find? fun n => n.kind == .objectCreation).getD default

theorem firstObject_mem {tree : Node}
    (h : (tree.parts.find? fun n => n.kind == .objectCreation).isSome = true) :
    firstObject tree ∈ tree.parts := by
  obtain ⟨n, hn⟩ := Option.isSome_iff_exists.1 h
  rw [firstObject, hn, Option.getD_some]
  exact List.mem_of_find?_eq_some hn

theorem exists_of_isExpr {v : Literal} (h : v.isExpr = true) : ∃ text, v = .expr text := by
  cases v with
  | expr text => exact ⟨text, rfl⟩
  | _ => cases h

/-- What the expression of the object is, by computation. -/
theorem firstObject_computed : (parse? objectSource).isSome = true ∧
    (objectTree.parts.find? fun n => n.kind == .objectCreation).isSome = true ∧
    (constantOf objectSource objectScope (firstObject objectTree)).isExpr = true ∧
    absoluteSource objectSource objectScope (firstObject objectTree).bare =
      "new \\A\\B(\\N\\C::X, \\N\\E\\F::m(\\N\\C::$v), \\N\\D::K)" ∧
    ((firstObject objectTree).bare.classWords.map fun w =>
      (w.text objectSource, w.detached, w.node.kind == .relativeScope)) =
      [("B", false, false), ("self", false, true), ("E\\F", false, false), ("static", false, true),
        ("parent", false, true)] := by
  decide +kernel

/-- The keyword in the first argument stands as the class. -/
theorem class_words_absolute_object : ∃ text before after, ∃ w ∈ (firstObject objectTree).bare.classWords,
    constantOf objectSource objectScope (firstObject objectTree) = .expr text ∧
      text = "new \\A\\B(\\N\\C::X, \\N\\E\\F::m(\\N\\C::$v), \\N\\D::K)" ∧
      w.text objectSource = "self" ∧
      w.ShownAs objectSource objectScope (firstObject objectTree).bare "\\N\\C" text before after := by
  obtain ⟨hparse, hpart, hkept, htext, hwords⟩ := firstObject_computed
  have htree : parse? objectSource = some objectTree := by
    obtain ⟨tree, hparse⟩ := Option.isSome_iff_exists.1 hparse
    rw [objectTree, hparse, Option.getD_some]
  obtain ⟨text, hexpr⟩ := exists_of_isExpr hkept
  obtain ⟨w, hw, hself⟩ := List.mem_map.1
    (hwords ▸ List.mem_cons_of_mem _ List.mem_cons_self : ("self", false, true) ∈ _)
  obtain ⟨hword, hattached, hkind⟩ : w.text objectSource = "self" ∧ w.detached = false ∧
      (w.node.kind == .relativeScope) = true := by simpa only [Prod.mk.injEq] using hself
  have hplain : w.IsPlain objectSource :=
    ⟨hattached, iff_of_true (beq_iff_eq.1 hkind) (by rw [hword]; decide)⟩
  have hcls : objectScope.meaning? (w.text objectSource) = some "N\\C" := by
    rw [hword]
    decide
  obtain ⟨-, -, hall⟩ := class_words_absolute htree (firstObject_mem hpart) hexpr
  obtain ⟨⟨before, after, hshown⟩, -⟩ := hall w hw hplain "N\\C" hcls
  exact ⟨text, before, after, w, hw, hexpr, (eq_of_constantOf_expr hexpr).trans htext, hword, hshown⟩

/-- The same class with an object of itself. -/
def ownObjectSource : Bytes :=
  Utf8.bytesOf "<?php namespace N; class C extends D\x7bfunction f($x = new self())\x7b\x7d\x7d"

/-- The keyword behind `new` is read as a name and stands as that of another class. -/
theorem self_behind_new_misnamed : ∃ tree, parse? ownObjectSource = some tree ∧
    firstObject tree ∈ tree.parts ∧
    constantOf ownObjectSource objectScope (firstObject tree) = .expr "new \\N\\self()" ∧
    (∃ w ∈ (firstObject tree).bare.classWords, w.text ownObjectSource = "self") ∧
    objectScope.meaning? "self" = some "N\\C" := by
  have hcomputed : (parse? ownObjectSource).isSome = true ∧
      let tree := (parse? ownObjectSource).getD default
      (tree.parts.find? fun n => n.kind == .objectCreation).isSome = true ∧
      (constantOf ownObjectSource objectScope (firstObject tree)).isExpr = true ∧
      absoluteSource ownObjectSource objectScope (firstObject tree).bare = "new \\N\\self()" ∧
      (firstObject tree).bare.classWords.map (ClassWord.text ownObjectSource) = ["self"] := by
    decide +kernel
  obtain ⟨hparse, hpart, hkept, htext, hwords⟩ := hcomputed
  obtain ⟨tree, htree⟩ := Option.isSome_iff_exists.1 hparse
  rw [htree, Option.getD_some] at hpart hkept htext hwords
  obtain ⟨text, hexpr⟩ := exists_of_isExpr hkept
  obtain ⟨w, hw, hword⟩ := List.mem_map.1 (hwords ▸ List.mem_cons_self : "self" ∈ _)
  refine ⟨tree, htree, firstObject_mem hpart, ?_, ⟨w, hw, hword⟩, by decide⟩
  rw [hexpr, eq_of_constantOf_expr hexpr, htext]

end FacadeStubs.Php
