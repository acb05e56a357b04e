import FacadeStubs.Export.Scalar
import FacadeStubs.Facade

/-!
# Service keys and folded constants

Constant expressions are evaluated in two places: as the key of a service (`Facade.key?`), where a
late static reference means the class that is called, and as a default value (`Export.fold`), where
it means the class that is noted in it. The two are separate recursions. They agree where they speak
of the same classes, that is, where every late static reference notes the class that is called and
no reference asks for the name of a class (`BoundTo`):

* `keyWith_isSome_iff`, `keyWith_eq`: one evaluation of an expression, for any way to follow its
  references;
* `key?_isSome_iff`: there is a key exactly of the expressions that are put together from strings
  and integers (`Joined`);
* `key?_eq_of_joined`: the key of such an expression is what it folds to, as a string;
* `keys_agree`: both, with any number of references to follow.
-/
namespace FacadeStubs

/-- A reference to a constant of a class. -/
structure Reference where
  /-- Whether the class that is called is meant, and not `cls`. -/
  late : Bool
  cls : String
  name : String
  deriving Repr, DecidableEq

mutual

/-- The references in a constant expression, at any depth. -/
def Literal.references : Literal → List Reference
  | .classConst cls name => [⟨false, cls, name⟩]
  | .lateStatic cls name => [⟨true, cls, name⟩]
  | .array entries => entryReferences entries
  | .binary _ left right => left.references ++ right.references
  | .unary _ operand => operand.references
  | _ => []

/-- The references in the keys and values of entries. -/
def entryReferences : List ArrayEntry → List Reference
  | [] => []
  | .item value :: rest => value.references ++ entryReferences rest
  | .pair key value :: rest => key.references ++ value.references ++ entryReferences rest

end

/-- An expression leads to itself and to the definitions of the constants that it refers to, at any
depth, and to what these lead to. -/
inductive ClassIndex.Leads (index : ClassIndex) : Literal → Literal → Prop
  | refl (v : Literal) : Leads index v v
  | step {u v w : Literal} {r : Reference} : r ∈ u.references → index.constant? r.cls r.name = some v →
      Leads index v w → Leads index u w

/-- An expression that names no class by the word for it, and whose late static references all note
the class that is called. -/
def Literal.BoundTo (called : String) (v : Literal) : Prop :=
  ∀ r ∈ v.references, Export.isClassWord r.name = false ∧ (r.late = true → r.cls = called)

instance (called : String) (v : Literal) : Decidable (v.BoundTo called) :=
  inferInstanceAs (Decidable (∀ r ∈ v.references, _))

/-- An index all of whose constants are bound to a class. -/
def ClassIndex.BoundTo (called : String) (index : ClassIndex) : Prop :=
  ∀ d ∈ index.decls, ∀ c ∈ d.constants, c.2.BoundTo called

instance (called : String) (index : ClassIndex) : Decidable (index.BoundTo called) :=
  inferInstanceAs (Decidable (∀ d ∈ index.decls, ∀ c ∈ d.constants, c.2.BoundTo called))

namespace Literal.BoundTo

variable {called op cls name : String} {l r : Literal}

theorem left (h : (Literal.binary op l r).BoundTo called) : l.BoundTo called := by
  intro ref href
  exact h ref (by simp [references, href])

theorem right (h : (Literal.binary op l r).BoundTo called) : r.BoundTo called := by
  intro ref href
  exact h ref (by simp [references, href])

theorem early (h : (Literal.classConst cls name).BoundTo called) :
    Export.isClassWord name = false :=
  (h ⟨false, cls, name⟩ (by simp [references])).1

theorem late (h : (Literal.lateStatic cls name).BoundTo called) :
    Export.isClassWord name = false ∧ cls = called := by
  obtain ⟨hname, hcls⟩ := h ⟨true, cls, name⟩ (by simp [references])
  exact ⟨hname, hcls rfl⟩

end Literal.BoundTo

/-- The value of a constant stands in some declaration. -/
theorem ClassIndex.exists_of_constant? {index : ClassIndex} {cls name : String} {v : Literal}
    (h : index.constant? cls name = some v) : ∃ d ∈ index.decls, ∃ c ∈ d.constants, c.2 = v := by
  obtain ⟨d, hd, hfound⟩ := List.exists_of_findSome?_eq_some h
  obtain ⟨owner, -, howner⟩ := List.mem_filterMap.mp hd
  obtain ⟨c, hc, hv⟩ := Option.map_eq_some_iff.mp hfound
  exact ⟨d, List.mem_of_find?_eq_some howner, c, List.mem_of_find?_eq_some hc, hv⟩

theorem ClassIndex.BoundTo.constant? {called : String} {index : ClassIndex}
    (h : index.BoundTo called) {cls name : String} {v : Literal}
    (hv : index.constant? cls name = some v) : v.BoundTo called := by
  obtain ⟨d, hd, c, hc, rfl⟩ := ClassIndex.exists_of_constant? hv
  exact h d hd c hc

namespace Facade

open Export

/-- Strings, integers, and joins of such; `reference` says which references are. -/
def JoinedWith (reference : String → String → Prop) : Literal → Prop
  | .str _ => True
  | .int _ => True
  | .classConst cls name => reference cls name
  | .lateStatic cls name => reference cls name
  | .binary op left right => op = "." ∧ JoinedWith reference left ∧ JoinedWith reference right
  | _ => False

/-- Expressions that are strings, integers and joins of such all the way down, with `budget`
references to constants followed one behind the other. -/
def Joined (index : ClassIndex) : Nat → Literal → Prop
  | 0 => JoinedWith fun _ _ => False
  | budget + 1 => JoinedWith fun cls name =>
      ∃ v, index.constant? cls name = some v ∧ Joined index budget v

/-- What is joined as a string is a scalar. -/
theorem scalarText?_of_stringOperand? {w : Literal} {s : String} (h : stringOperand? w = some s) :
    (scalarText? w).isSome = true := by
  cases w <;> first | rfl | cases h

/-- Joining two scalars joins their strings. -/
theorem stringOperand?_join (left right : Option Literal) :
    (match left, right with
      | some a, some b => binary? "." a b
      | _, _ => none).bind stringOperand? =
    match left.bind stringOperand?, right.bind stringOperand? with
      | some a, some b => some (a ++ b)
      | _, _ => none := by
  cases left with
  | none => rfl
  | some a =>
    cases right with
    | none => simp
    | some b =>
      simp only [Option.bind_some, binary?, beq_self_eq_true, if_true]
      cases stringOperand? a with
      | none => rfl
      | some s =>
        cases stringOperand? b with
        | none => rfl
        | some t => rfl

/-! ## One evaluation -/

section Evaluation

variable {called : String} {follow : String → String → Option String}

/-- There is a key exactly of what is joined from strings, integers and references that have one. -/
theorem keyWith_isSome_iff : ∀ {v : Literal}, v.BoundTo called →
    ((keyWith follow called v).isSome = true ↔
      JoinedWith (fun c n => (follow c n).isSome = true) v)
  | .str _, _ | .int _, _ => by simp [keyWith, JoinedWith]
  | .classConst c n, _ => Iff.rfl
  | .lateStatic c n, hv => by
    obtain ⟨hn, rfl⟩ := hv.late
    have hn : (lowerCase n == "class") = false := hn
    simp [keyWith, JoinedWith, hn]
  | .binary op left right, hv => by
    have hleft := keyWith_isSome_iff hv.left
    have hright := keyWith_isSome_iff hv.right
    simp only [keyWith, JoinedWith, ← hleft, ← hright, beq_iff_eq]
    by_cases hop : op = "."
    · simp only [hop, if_true, true_and]
      cases keyWith follow called left <;> cases keyWith follow called right <;> simp
    · simp [hop]
  | .null, _ | .bool _, _ | .float _, _ | .array _, _ | .unary _ _, _ | .expr _, _ => by
    simp [keyWith, JoinedWith]

/-- If the references are followed to the same strings, so is what is joined from them. -/
theorem keyWith_eq {reference : String → String → Option Literal} {joined : String → String → Prop}
    (href : ∀ c n, joined c n → follow c n = (reference c n).bind stringOperand?) :
    ∀ {v : Literal}, v.BoundTo called → JoinedWith joined v →
      keyWith follow called v = (foldWith reference v).bind stringOperand?
  | .str _, _, _ | .int _, _, _ => rfl
  | .classConst c n, hv, h => by
    have hn := hv.early
    simp only [keyWith, foldWith, hn]
    exact href c n h
  | .lateStatic c n, hv, h => by
    obtain ⟨hn, rfl⟩ := hv.late
    have hn' : (lowerCase n == "class") = false := hn
    simp only [keyWith, foldWith, hn, hn']
    exact href c n h
  | .binary op left right, hv, h => by
    obtain ⟨rfl, hl, hr⟩ := h
    have hleft := keyWith_eq href hv.left hl
    have hright := keyWith_eq href hv.right hr
    simp only [keyWith, foldWith, beq_self_eq_true, if_true, hleft, hright]
    exact (stringOperand?_join _ _).symm
  | .null, _, h | .bool _, _, h | .float _, _, h | .array _, _, h | .unary _ _, _, h
  | .expr _, _, h => h.elim

theorem joinedWith_congr {joined joined' : String → String → Prop}
    (h : ∀ c n, joined c n ↔ joined' c n) (v : Literal) :
    JoinedWith joined v ↔ JoinedWith joined' v := by
  have heq : joined = joined' := by
    funext c n
    exact propext (h c n)
  rw [heq]

end Evaluation

/-! ## Following constants -/

section Following

variable {index : ClassIndex} {called : String}

theorem key?_isSome_iff (hindex : index.BoundTo called) : ∀ {budget : Nat} {v : Literal},
    v.BoundTo called → ((key? index called budget v).isSome = true ↔ Joined index budget v)
  | 0, v, hv => by
    refine (keyWith_isSome_iff hv).trans (joinedWith_congr (fun c n => ?_) v)
    simp
  | budget + 1, v, hv => by
    refine (keyWith_isSome_iff hv).trans (joinedWith_congr (fun c n => ?_) v)
    cases hw : index.constant? c n with
    | none => simp
    | some w => simpa using key?_isSome_iff hindex (hindex.constant? hw)

theorem key?_eq_of_joined (hindex : index.BoundTo called) : ∀ {budget : Nat} {v : Literal},
    v.BoundTo called → Joined index budget v →
      key? index called budget v = (fold index budget v).bind stringOperand?
  | 0, _, hv, h => keyWith_eq (fun _ _ hjoined => hjoined.elim) hv h
  | budget + 1, _, hv, h => by
    refine keyWith_eq (fun c n hjoined => ?_) hv h
    obtain ⟨w, hw, hjoined⟩ := hjoined
    simp only [hw, Option.bind_some]
    exact key?_eq_of_joined hindex (hindex.constant? hw) hjoined

/-- The two evaluations agree. Where an expression and the constants of an index are bound to the
class that is called, a key is a scalar that the expression folds to, written as a string; and there
is a key exactly of the expressions that are joined from strings and integers. -/
theorem keys_agree (hindex : index.BoundTo called) {v : Literal} (hv : v.BoundTo called)
    (budget : Nat) :
    (∀ s, key? index called budget v = some s → ∃ w, fold index budget v = some w ∧
      (scalarText? w).isSome = true ∧ stringOperand? w = some s) ∧
    ((key? index called budget v).isSome = true ↔ Joined index budget v) := by
  refine ⟨fun s hs => ?_, key?_isSome_iff hindex hv⟩
  have hjoined : Joined index budget v :=
    (key?_isSome_iff hindex hv).mp (Option.isSome_of_eq_some hs)
  have hfold := key?_eq_of_joined hindex hv hjoined
  rw [hs] at hfold
  obtain ⟨w, hw, hstring⟩ := Option.bind_eq_some_iff.mp hfold.symm
  exact ⟨w, hw, scalarText?_of_stringOperand? hstring, hstring⟩

/-- A base class whose key is joined from a constant of its own and one of the class called. -/
def prefixedIndex : ClassIndex where
  decls :=
    [{ name := "Base"
       constants := [("START", .str "app."),
         ("KEY", .binary "." (.classConst "Base" "START") (.lateStatic "Mail" "NAME"))] },
     { name := "Mail", extendsNames := ["Base"]
       constants := [("NAME", .binary "." (.str "mail") (.int 2))] }]

/-- The key of the base class, asked of the class that is called. -/
theorem keys_agree_prefixed :
    key? prefixedIndex "Mail" maxDepth (.lateStatic "Mail" "KEY") = some "app.mail2" ∧
    ∃ w, fold prefixedIndex maxDepth (.lateStatic "Mail" "KEY") = some w ∧
      (scalarText? w).isSome = true ∧ stringOperand? w = some "app.mail2" := by
  have hindex : prefixedIndex.BoundTo "Mail" := by decide +kernel
  have hv : (Literal.lateStatic "Mail" "KEY").BoundTo "Mail" := by decide +kernel
  have hkey : key? prefixedIndex "Mail" maxDepth (.lateStatic "Mail" "KEY") = some "app.mail2" := by
    decide +kernel
  exact ⟨hkey, (keys_agree hindex hv maxDepth).1 _ hkey⟩

end Following

end Facade

end FacadeStubs
