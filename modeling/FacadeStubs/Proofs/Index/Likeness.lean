import FacadeStubs.Facade
import FacadeStubs.Proofs.MethodTable
import FacadeStubs.Proofs.Supertypes
import Mathlib.Data.List.Forall2

/-!
# Alike indices

Two indices are *alike* under a relation between names (`Alike`) if related names have the same key
and the same declaration, but for the names that the declaration lists, which are related one by
one. Asked about related names, alike indices give related answers:

* `ancestors_alike`, `interfaces_alike`, `unindexedSupertypes_alike`: lists of names, related entry
  by entry;
* `methodsOf_alike`, `findMethod?_alike`, `constant?_alike`: the same methods and constants;
* `implements_alike`, `isSubclassOf_alike`, `isMarked_alike`: the same decisions.

The relation is a parameter. With equality of names it says that an index is known by what it
declares, in whatever order; with equality of keys it says that the spelling of names does not
matter.

The walks of the two indices are compared step by step. What they have seen is kept by key, so it is
the same on both sides. Their bounds differ, as the indices may; each walk ends by itself below its
bound, so both can be taken with the larger one.
-/
namespace FacadeStubs.ClassIndex

/-- Two declarations that are the same but for the names they list, which are related one by one. -/
structure Respelled (R : String → String → Prop) (d e : ClassDecl) : Prop where
  same : e = { d with
    extendsNames := e.extendsNames, implementsNames := e.implementsNames, traits := e.traits }
  extendsNames : List.Forall₂ R d.extendsNames e.extendsNames
  implementsNames : List.Forall₂ R d.implementsNames e.implementsNames
  traits : List.Forall₂ R d.traits e.traits

/-- Related names have one key, and declarations that differ at most in related names. -/
structure Alike (R : String → String → Prop) (I J : ClassIndex) : Prop where
  key {a b : String} : R a b → classKey a = classKey b
  get {a b : String} : R a b → Option.Rel (Respelled R) (I.get? a) (J.get? b)

/-! ## Related lists -/

section Lists

variable {α β γ : Type} {R : α → β → Prop} {as : List α} {bs : List β}

theorem any_eq_of_forall₂ {p : α → Bool} {q : β → Bool} (hpq : ∀ a b, R a b → p a = q b)
    (h : List.Forall₂ R as bs) : as.any p = bs.any q := by
  induction h with
  | nil => rfl
  | cons hab _ ih => simp only [List.any_cons, hpq _ _ hab, ih]

theorem findSome?_eq_of_forall₂ {f : α → Option γ} {g : β → Option γ}
    (hfg : ∀ a b, R a b → f a = g b) (h : List.Forall₂ R as bs) :
    as.findSome? f = bs.findSome? g := by
  induction h with
  | nil => rfl
  | cons hab _ ih => simp only [List.findSome?_cons, hfg _ _ hab, ih]

theorem flatMap_eq_of_forall₂ {f : α → List γ} {g : β → List γ} (hfg : ∀ a b, R a b → f a = g b)
    (h : List.Forall₂ R as bs) : as.flatMap f = bs.flatMap g := by
  induction h with
  | nil => rfl
  | cons hab _ ih => simp only [List.flatMap_cons, hfg _ _ hab, ih]

theorem head?_rel (h : List.Forall₂ R as bs) : Option.Rel R as.head? bs.head? := by
  cases h with
  | nil => exact .none
  | cons hab _ => exact .some hab

theorem takeWhile_forall₂ {p : α → Bool} {q : β → Bool} (hpq : ∀ a b, R a b → p a = q b)
    (h : List.Forall₂ R as bs) : List.Forall₂ R (as.takeWhile p) (bs.takeWhile q) := by
  induction h with
  | nil => exact .nil
  | cons hab _ ih =>
    simp only [List.takeWhile_cons, hpq _ _ hab]
    split
    · exact .cons hab ih
    · exact .nil

end Lists

/-! ## Searches -/

section Search

variable {R : String → String → Prop} {next next' : String → List String}

theorem breadthFirst_alike (hkey : ∀ {a b}, R a b → classKey a = classKey b)
    (hnext : ∀ {a b}, R a b → List.Forall₂ R (next a) (next' b)) :
    ∀ (fuel : Nat) (seen : List String) {work work' : List String}, List.Forall₂ R work work' →
      List.Forall₂ R (breadthFirst next fuel seen work) (breadthFirst next' fuel seen work')
  | 0, _, _, _, _ => .nil
  | _ + 1, _, _, _, .nil => .nil
  | fuel + 1, seen, _, _, .cons hab hwork => by
    simp only [breadthFirst, hkey hab]
    split
    · exact breadthFirst_alike hkey hnext fuel seen hwork
    · exact .cons hab (breadthFirst_alike hkey hnext fuel _ (List.rel_append hwork (hnext hab)))

theorem depthFirst_alike (hkey : ∀ {a b}, R a b → classKey a = classKey b)
    (hnext : ∀ {a b}, R a b → List.Forall₂ R (next a) (next' b)) :
    ∀ (fuel : Nat) (seen : List String) {work work' : List String}, List.Forall₂ R work work' →
      List.Forall₂ R (depthFirst next fuel seen work) (depthFirst next' fuel seen work')
  | 0, _, _, _, _ => .nil
  | _ + 1, _, _, _, .nil => .nil
  | fuel + 1, seen, _, _, .cons hab hwork => by
    simp only [depthFirst, hkey hab]
    split
    · exact depthFirst_alike hkey hnext fuel seen hwork
    · exact .cons hab (depthFirst_alike hkey hnext fuel _ (List.rel_append (hnext hab) hwork))

end Search

/-! ## Questions -/

section Questions

variable {R : String → String → Prop} {I J : ClassIndex} {a b : String}

theorem Respelled.kind {d e : ClassDecl} (h : Respelled R d e) : e.kind = d.kind := by rw [h.same]

theorem Respelled.methods {d e : ClassDecl} (h : Respelled R d e) : e.methods = d.methods := by
  rw [h.same]

theorem Respelled.constant? {d e : ClassDecl} (h : Respelled R d e) (c : String) :
    e.constant? c = d.constant? c := by
  rw [h.same]
  rfl

theorem Respelled.fqn {d e : ClassDecl} (h : Respelled R d e) : e.fqn = d.fqn := by
  rw [h.same]
  rfl

/-- Related names are both declared, or neither is. -/
theorem Alike.get_cases (h : Alike R I J) (hab : R a b) : (I.get? a = none ∧ J.get? b = none) ∨
    ∃ d e, I.get? a = some d ∧ J.get? b = some e ∧ Respelled R d e := by
  have hrel := h.get hab
  generalize I.get? a = x at hrel ⊢
  generalize J.get? b = y at hrel ⊢
  cases hrel with
  | none => exact Or.inl ⟨rfl, rfl⟩
  | some hde => exact Or.inr ⟨_, _, rfl, rfl, hde⟩

/-- What declarations list under the same heading is related. -/
theorem listed_alike (h : Alike R I J) {targets : ClassDecl → List String}
    (ht : ∀ d e, Respelled R d e → List.Forall₂ R (targets d) (targets e)) (hab : R a b) :
    List.Forall₂ R (((I.get? a).map targets).getD []) (((J.get? b).map targets).getD []) := by
  rcases h.get_cases hab with ⟨ha, hb⟩ | ⟨d, e, ha, hb, hde⟩
  · simp [ha, hb]
  · simpa [ha, hb] using ht d e hde

theorem extendsOf_alike (h : Alike R I J) (hab : R a b) :
    List.Forall₂ R (I.extendsOf a) (J.extendsOf b) :=
  listed_alike h (fun _ _ => (·.extendsNames)) hab

theorem implementsOf_alike (h : Alike R I J) (hab : R a b) :
    List.Forall₂ R (I.implementsOf a) (J.implementsOf b) :=
  listed_alike h (fun _ _ => (·.implementsNames)) hab

theorem traitsOf_alike (h : Alike R I J) (hab : R a b) :
    List.Forall₂ R (I.traitsOf a) (J.traitsOf b) := listed_alike h (fun _ _ => (·.traits)) hab

theorem contains_alike (h : Alike R I J) (hab : R a b) : I.contains a = J.contains b := by
  rcases h.get_cases hab with ⟨ha, hb⟩ | ⟨d, e, ha, hb, -⟩ <;> simp [contains, ha, hb]

theorem methodsAt_alike (h : Alike R I J) (hab : R a b) :
    ((I.get? a).map (·.methods)).getD [] = ((J.get? b).map (·.methods)).getD [] := by
  rcases h.get_cases hab with ⟨ha, hb⟩ | ⟨d, e, ha, hb, hde⟩
  · simp [ha, hb]
  · simp [ha, hb, hde.methods]

theorem parent?_alike (h : Alike R I J) (hab : R a b) :
    Option.Rel R (I.parent? a) (J.parent? b) := by
  rcases h.get_cases hab with ⟨ha, hb⟩ | ⟨d, e, ha, hb, hde⟩
  · simp only [parent?, ha, hb]
    exact .none
  · simp only [parent?, ha, hb, hde.kind]
    split
    · exact head?_rel hde.extendsNames
    · exact .none

theorem climb_alike (h : Alike R I J) : ∀ (fuel : Nat) (seen : List String) {a b : String}, R a b →
    List.Forall₂ R (I.climb fuel seen a) (J.climb fuel seen b)
  | 0, _, _, _, _ => .nil
  | fuel + 1, seen, a, b, hab => by
    have hparent := parent?_alike h hab
    simp only [climb]
    generalize I.parent? a = x at hparent ⊢
    generalize J.parent? b = y at hparent ⊢
    cases hparent with
    | none => exact .nil
    | some hpq =>
      simp only [h.key hpq]
      split
      · exact .nil
      · exact .cons hpq (climb_alike h fuel _ hpq)

theorem ancestors_alike (h : Alike R I J) (hab : R a b) :
    List.Forall₂ R (I.ancestors a) (J.ancestors b) := by
  rw [← ancestors_eq I a (Nat.le_max_left I.size J.size),
    ← ancestors_eq J b (Nat.le_max_right I.size J.size), h.key hab]
  exact climb_alike h _ _ hab

theorem directInterfaces_alike (h : Alike R I J) (hab : R a b) :
    List.Forall₂ R (I.directInterfaces a) (J.directInterfaces b) := by
  have hinherited : List.Forall₂ R ((I.ancestors a).flatMap I.implementsOf)
      ((J.ancestors b).flatMap J.implementsOf) :=
    List.rel_flatMap (ancestors_alike h hab) fun _ _ => implementsOf_alike h
  unfold directInterfaces
  refine List.rel_append ?_ hinherited
  rcases h.get_cases hab with ⟨ha, hb⟩ | ⟨d, e, ha, hb, hde⟩
  · simp only [ha, hb]
    exact .nil
  · simp only [ha, hb, hde.kind]
    refine List.rel_append hde.implementsNames ?_
    split
    · exact hde.extendsNames
    · exact .nil

theorem interfaces_alike (h : Alike R I J) (hab : R a b) :
    List.Forall₂ R (I.interfaces a) (J.interfaces b) := by
  let bound := max ((I.directInterfaces a).length + I.edges (·.extendsNames))
    ((J.directInterfaces b).length + J.edges (·.extendsNames))
  rw [← interfaces_eq I a (Nat.le_max_left _ _ : _ ≤ bound),
    ← interfaces_eq J b (Nat.le_max_right _ _ : _ ≤ bound)]
  exact breadthFirst_alike h.key (extendsOf_alike h) bound [] (directInterfaces_alike h hab)

theorem lists_alike (h : Alike R I J) {as bs : List String} (hnames : List.Forall₂ R as bs)
    {t u : String} (htu : classKey t = classKey u) :
    as.any (fun n => classKey n == classKey t) = bs.any fun n => classKey n == classKey u :=
  any_eq_of_forall₂ (fun _ _ hab => by rw [h.key hab, htu]) hnames

theorem implements_alike (h : Alike R I J) (hab : R a b) {t u : String}
    (htu : classKey t = classKey u) : I.implements a t = J.implements b u :=
  lists_alike h (interfaces_alike h hab) htu

theorem isSubclassOf_alike (h : Alike R I J) (hab : R a b) {t u : String}
    (htu : classKey t = classKey u) : I.isSubclassOf a t = J.isSubclassOf b u := by
  unfold isSubclassOf
  rw [lists_alike h (ancestors_alike h hab) htu, implements_alike h hab htu, h.key hab, htu]

theorem isMarked_alike (h : Alike R I J) (hab : R a b) {markers markers' : List String}
    (hm : List.Forall₂ (fun m m' => classKey m = classKey m') markers markers') :
    Facade.isMarked I markers a = Facade.isMarked J markers' b := by
  refine any_eq_of_forall₂ (fun m m' hmm => ?_) hm
  rw [isSubclassOf_alike h hab hmm, implements_alike h hab hmm]

/-! ### Methods and constants -/

theorem decls_alike (h : Alike R I J) {as bs : List String} (hnames : List.Forall₂ R as bs) :
    List.Forall₂ (Respelled R) (as.filterMap I.get?) (bs.filterMap J.get?) := by
  have hget : Relator.LiftFun R (Option.Rel (Respelled R)) I.get? J.get? := fun _ _ => h.get
  exact List.rel_filterMap hget hnames

theorem chain_alike (h : Alike R I J) (hab : R a b) :
    List.Forall₂ (Respelled R) (I.chain a) (J.chain b) := by
  have hnames : List.Forall₂ R (a :: I.ancestors a) (b :: J.ancestors b) :=
    .cons hab (ancestors_alike h hab)
  exact decls_alike h (takeWhile_forall₂ (fun _ _ hcd => contains_alike h hcd) hnames)

theorem usedTraits_alike (h : Alike R I J) {d e : ClassDecl} (hde : Respelled R d e) :
    List.Forall₂ R (I.usedTraits d) (J.usedTraits e) := by
  let bound := max (d.traits.length + I.edges (·.traits)) (e.traits.length + J.edges (·.traits))
  rw [← usedTraits_eq I d (Nat.le_max_left _ _ : _ ≤ bound),
    ← usedTraits_eq J e (Nat.le_max_right _ _ : _ ≤ bound)]
  exact depthFirst_alike h.key (traitsOf_alike h) bound [] hde.traits

theorem contributed_alike (h : Alike R I J) {d e : ClassDecl} (hde : Respelled R d e) :
    I.contributed d = J.contributed e := by
  unfold contributed
  rw [hde.methods]
  congr 1
  exact flatMap_eq_of_forall₂ (fun _ _ htu => methodsAt_alike h htu) (usedTraits_alike h hde)

theorem methodsOf_alike (h : Alike R I J) (hab : R a b) : I.methodsOf a = J.methodsOf b := by
  unfold methodsOf
  congr 1
  exact flatMap_eq_of_forall₂ (fun _ _ hde => contributed_alike h hde) (chain_alike h hab)

theorem findMethod?_alike (h : Alike R I J) (hab : R a b) {m n : String}
    (hmn : lowerCase m = lowerCase n) : I.findMethod? a m = J.findMethod? b n := by
  unfold findMethod? sameIgnoringCase
  rw [methodsOf_alike h hab, hmn]

theorem constant?_alike (h : Alike R I J) (hab : R a b) (c : String) :
    I.constant? a c = J.constant? b c := by
  have howners : List.Forall₂ R (a :: (I.ancestors a ++ I.interfaces a))
      (b :: (J.ancestors b ++ J.interfaces b)) :=
    .cons hab (List.rel_append (ancestors_alike h hab) (interfaces_alike h hab))
  exact findSome?_eq_of_forall₂ (fun _ _ hde => (hde.constant? c).symm) (decls_alike h howners)

theorem missingAlong_alike (h : Alike R I J) : ∀ {as bs : List String}, List.Forall₂ R as bs →
    List.Forall₂ R (I.missingAlong as) (J.missingAlong bs)
  | _, _, .nil => .nil
  | _, _, .cons hab hrest => by
    rcases h.get_cases hab with ⟨ha, hb⟩ | ⟨d, e, ha, hb, hde⟩
    · simp only [missingAlong, ha, hb]
      exact .cons hab .nil
    · simp only [missingAlong, ha, hb]
      refine List.rel_append (List.rel_filter ?_ hde.traits) (missingAlong_alike h hrest)
      intro t u htu
      simp only [contains_alike h htu]

theorem unindexedSupertypes_alike (h : Alike R I J) (hab : R a b) :
    List.Forall₂ R (I.unindexedSupertypes a) (J.unindexedSupertypes b) :=
  missingAlong_alike h (.cons hab (ancestors_alike h hab))

end Questions

end FacadeStubs.ClassIndex
