import FacadeStubs.Proofs.MethodTable
import FacadeStubs.Proofs.Supertypes

/-!
# Missing names

The methods of a class are collected along its chain of parents and through the traits that these
use. `LooksUp` says which names are looked up on the way, and `Misses` which of them are not
indexed, so that their methods are not in the table. `unindexedSupertypes` is there to name them. It
looks at the traits that the classes of the chain use, but not at the traits of these traits.

* `methodsOf_congr`: the methods depend on what is declared under the names that are looked up, and
  on nothing else;
* `mem_unindexedSupertypes_iff`: the names that are listed are those that the chain itself names and
  the index does not have;
* `unindexedSupertypes_exact`: every listed name is missed, and every missed name is listed exactly if
  the chain itself names what its traits miss;
* `nested_trait_unlisted`: a class for which it does not.

A chain steps from indexed names only, so all of its names but the last are indexed. This is why
membership in the chain needs no word about where it is cut.
-/
namespace FacadeStubs.ClassIndex

/-- A name that is looked up for the methods of a class: the class, one of its parents, or a trait
that one of these uses, directly or through other traits. -/
inductive LooksUp (index : ClassIndex) (name : String) : String → Prop where
  | cls {a : String} : a ∈ name :: index.ancestors name → LooksUp index name a
  | trait {d : ClassDecl} {t : String} : d ∈ index.chain name →
      Reachable index.traitsOf d.traits t → LooksUp index name t

/-- A name that is looked up for the methods of a class and not found. -/
def Misses (index : ClassIndex) (name t : String) : Prop :=
  index.LooksUp name t ∧ index.get? t = none

/-- A name that a class of the chain brings in by itself: its own, or that of a trait it uses. -/
inductive NamedByChain (index : ClassIndex) (name : String) : String → Prop where
  | cls {a : String} : a ∈ name :: index.ancestors name → NamedByChain index name a
  | trait {d : ClassDecl} {t : String} : d ∈ index.chain name → t ∈ d.traits →
      NamedByChain index name t

/-- Whether the chain names, in some spelling, every trait that an indexed trait uses and that is not
indexed. -/
def NestedTraitsNamed (index : ClassIndex) (name : String) : Prop :=
  ∀ d ∈ index.chain name, ∀ t u, Reachable index.traitsOf d.traits t → u ∈ index.traitsOf t →
    index.get? u = none → ∃ v, index.NamedByChain name v ∧ classKey v = classKey u

/-! ## The chain -/

section Chain

variable {index : ClassIndex} {name : String}

theorem isChain_ancestors (index : ClassIndex) (name : String) :
    (name :: index.ancestors name).IsChain index.ParentStep := climb_isChain index _ _ name

/-- A name of which a chain goes on is indexed. -/
theorem eq_nil_of_isChain {a : String} {rest : List String} (h : (a :: rest).IsChain index.ParentStep)
    (hnone : index.get? a = none) : rest = [] := by
  cases rest with
  | nil => rfl
  | cons b rest =>
    obtain ⟨d, hd, -, -⟩ := (List.isChain_cons_cons.mp h).1
    rw [hnone] at hd
    cases hd

theorem mem_filterMap_takeWhile_iff {d : ClassDecl} : ∀ {names : List String},
    names.IsChain index.ParentStep →
    (d ∈ (names.takeWhile index.contains).filterMap index.get? ↔ ∃ a ∈ names, index.get? a = some d)
  | [], _ => by simp
  | a :: rest, h => by
    cases ha : index.get? a with
    | none =>
      obtain rfl := eq_nil_of_isChain h ha
      simp [contains, ha]
    | some e =>
      have htail : rest.IsChain index.ParentStep := h.tail
      have hhere : index.contains a = true := by simp [contains, ha]
      rw [List.takeWhile_cons_of_pos hhere, List.filterMap_cons_some ha, List.mem_cons,
        mem_filterMap_takeWhile_iff htail, List.exists_mem_cons_iff, ha, Option.some.injEq, eq_comm]

theorem mem_chain_iff {d : ClassDecl} :
    d ∈ index.chain name ↔ ∃ a ∈ name :: index.ancestors name, index.get? a = some d :=
  mem_filterMap_takeWhile_iff (isChain_ancestors index name)

theorem mem_missingAlong_iff {t : String} : ∀ {names : List String},
    names.IsChain index.ParentStep → (t ∈ index.missingAlong names ↔
      index.get? t = none ∧ (t ∈ names ∨ ∃ a ∈ names, ∃ d, index.get? a = some d ∧ t ∈ d.traits))
  | [], _ => by simp [missingAlong]
  | a :: rest, h => by
    cases ha : index.get? a with
    | none =>
      obtain rfl := eq_nil_of_isChain h ha
      simp only [missingAlong, ha, List.mem_singleton]
      constructor
      · rintro rfl
        exact ⟨ha, Or.inl rfl⟩
      · rintro ⟨-, rfl | ⟨b, rfl, d, hd, -⟩⟩
        · rfl
        · rw [ha] at hd
          cases hd
    | some e =>
      have htail : rest.IsChain index.ParentStep := h.tail
      have hne : index.get? t = none → t ≠ a := by
        rintro hnone rfl
        rw [ha] at hnone
        cases hnone
      have htraits : t ∈ e.traits.filter (!index.contains ·) ↔ t ∈ e.traits ∧ index.get? t = none := by
        simp [contains]
      rw [List.exists_mem_cons_iff]
      simp only [missingAlong, ha, List.mem_append, htraits, mem_missingAlong_iff htail, List.mem_cons,
        Option.some.injEq, exists_eq_left']
      constructor
      · rintro (⟨ht, hnone⟩ | ⟨hnone, hmem | huse⟩)
        · exact ⟨hnone, Or.inr (Or.inl ht)⟩
        · exact ⟨hnone, Or.inl (Or.inr hmem)⟩
        · exact ⟨hnone, Or.inr (Or.inr huse)⟩
      · rintro ⟨hnone, (heq | hmem) | ht | huse⟩
        · exact absurd heq (hne hnone)
        · exact Or.inr ⟨hnone, Or.inl hmem⟩
        · exact Or.inl ⟨ht, hnone⟩
        · exact Or.inr ⟨hnone, Or.inr huse⟩

/-- The listed names are those that the chain names and the index does not have. -/
theorem mem_unindexedSupertypes_iff {t : String} :
    t ∈ index.unindexedSupertypes name ↔ index.NamedByChain name t ∧ index.get? t = none := by
  rw [unindexedSupertypes, mem_missingAlong_iff (isChain_ancestors index name)]
  constructor
  · rintro ⟨hnone, hcls | ⟨a, ha, d, hd, ht⟩⟩
    · exact ⟨.cls hcls, hnone⟩
    · exact ⟨.trait (mem_chain_iff.mpr ⟨a, ha, hd⟩) ht, hnone⟩
  · rintro ⟨hcls | ⟨hd, ht⟩, hnone⟩
    · exact ⟨hnone, Or.inl hcls⟩
    · obtain ⟨a, ha, hd⟩ := mem_chain_iff.mp hd
      exact ⟨hnone, Or.inr ⟨a, ha, _, hd, ht⟩⟩

end Chain

/-! ## What the methods depend on -/

section Dependence

variable {index other : ClassIndex}

theorem parent?_of_get? {a : String} (h : other.get? a = index.get? a) :
    other.parent? a = index.parent? a := by
  unfold parent?; rw [h]

theorem traitsOf_of_get? {a : String} (h : other.get? a = index.get? a) :
    other.traitsOf a = index.traitsOf a := by
  unfold traitsOf; rw [h]

theorem climb_congr (fuel : Nat) (seen : List String) (name : String)
    (h : ∀ a ∈ name :: index.climb fuel seen name, other.get? a = index.get? a) :
    other.climb fuel seen name = index.climb fuel seen name := by
  induction fuel generalizing seen name with
  | zero => rfl
  | succ fuel ih =>
    have hparent := parent?_of_get? (h name List.mem_cons_self)
    simp only [climb] at h ⊢
    rw [hparent]
    split
    · rfl
    · rename_i p hp
      simp only [hp] at h
      split
      · rfl
      · rename_i hs
        rw [if_neg hs] at h
        rw [ih _ p fun a ha => h a (List.mem_cons_of_mem _ ha)]

theorem ancestors_congr {name : String}
    (h : ∀ a ∈ name :: index.ancestors name, other.get? a = index.get? a) :
    other.ancestors name = index.ancestors name := by
  -- The two indices have bounds of their own; both chains end by themselves below the larger one.
  have hends := ancestors_eq index name (Nat.le_max_left index.size other.size)
  have hends' := ancestors_eq other name (Nat.le_max_right index.size other.size)
  rw [← hends] at h ⊢
  rw [← hends']
  exact climb_congr _ _ _ h

theorem chain_congr {name : String}
    (h : ∀ a ∈ name :: index.ancestors name, other.get? a = index.get? a) :
    other.chain name = index.chain name := by
  unfold chain
  rw [ancestors_congr h]
  generalize name :: index.ancestors name = names at h
  induction names with
  | nil => rfl
  | cons a rest ih =>
    have ha := h a List.mem_cons_self
    have hrest := ih fun b hb => h b (List.mem_cons_of_mem _ hb)
    have hcontains : other.contains a = index.contains a := by unfold contains; rw [ha]
    rw [List.takeWhile_cons, List.takeWhile_cons, hcontains]
    split
    · rw [List.filterMap_cons, List.filterMap_cons, ha, hrest]
    · rfl

theorem usedTraits_congr {d : ClassDecl}
    (h : ∀ t, Reachable index.traitsOf d.traits t → other.get? t = index.get? t) :
    other.usedTraits d = index.usedTraits d := by
  let bound := d.traits.length + max (index.edges (·.traits)) (other.edges (·.traits))
  have hindex : depthFirst index.traitsOf bound [] d.traits = index.usedTraits d :=
    usedTraits_eq index d (Nat.add_le_add_left (Nat.le_max_left _ _) _)
  have hother : depthFirst other.traitsOf bound [] d.traits = other.usedTraits d :=
    usedTraits_eq other d (Nat.add_le_add_left (Nat.le_max_right _ _) _)
  rw [← hother, ← hindex]
  refine depthFirst_congr _ _ _ fun t ht => traitsOf_of_get? (h t ?_)
  rw [hindex] at ht
  exact (usedTraits_walk index d).reachable t ht

/-- The methods of a class depend on what is declared under the names that are looked up for them. -/
theorem methodsOf_congr {name : String}
    (h : ∀ t, index.LooksUp name t → other.get? t = index.get? t) :
    other.methodsOf name = index.methodsOf name := by
  unfold methodsOf
  rw [chain_congr fun a ha => h a (.cls ha)]
  congr 1
  refine List.flatMap_congr fun d hd => ?_
  have hused := usedTraits_congr fun t ht => h t (.trait hd ht)
  unfold contributed
  rw [hused]
  congr 1
  refine List.flatMap_congr fun t ht => ?_
  rw [h t (.trait hd ((usedTraits_walk index d).reachable t ht))]

end Dependence

/-! ## What is listed -/

section Listed

variable {index : ClassIndex} {name : String}

theorem NamedByChain.looksUp {t : String} (h : index.NamedByChain name t) : index.LooksUp name t := by
  cases h with
  | cls ha => exact .cls ha
  | trait hd ht => exact .trait hd (.start ht)

/-- A name that is looked up is named by the chain or used by a trait. -/
theorem LooksUp.cases {t : String} (h : index.LooksUp name t) : index.NamedByChain name t ∨
    ∃ d ∈ index.chain name, ∃ u, Reachable index.traitsOf d.traits u ∧ t ∈ index.traitsOf u := by
  cases h with
  | cls ha => exact Or.inl (.cls ha)
  | trait hd hreach =>
    cases hreach with
    | start ht => exact Or.inl (.trait hd ht)
    | step hu ht => exact Or.inr ⟨_, hd, _, hu, ht⟩

theorem lists_unindexedSupertypes_iff {t : String} :
    Lists (index.unindexedSupertypes name) t ↔
      (∃ v, index.NamedByChain name v ∧ classKey v = classKey t) ∧ index.get? t = none := by
  constructor
  · rintro ⟨v, hv, hk⟩
    obtain ⟨hnamed, hnone⟩ := mem_unindexedSupertypes_iff.mp hv
    exact ⟨⟨v, hnamed, hk⟩, (get?_congr index hk).symm.trans hnone⟩
  · rintro ⟨⟨v, hnamed, hk⟩, hnone⟩
    exact ⟨v, mem_unindexedSupertypes_iff.mpr ⟨hnamed, (get?_congr index hk).trans hnone⟩, hk⟩

/-- Every missed name is listed exactly if the chain names the missing traits of traits. -/
theorem lists_of_misses_iff :
    (∀ t, index.Misses name t → Lists (index.unindexedSupertypes name) t) ↔
      index.NestedTraitsNamed name := by
  simp only [lists_unindexedSupertypes_iff]
  constructor
  · intro h d hd t u ht hu hnone
    exact (h u ⟨.trait hd (.step ht hu), hnone⟩).1
  · rintro hnested t ⟨hlooks, hnone⟩
    refine ⟨?_, hnone⟩
    rcases hlooks.cases with hnamed | ⟨d, hd, u, hu, ht⟩
    · exact ⟨t, hnamed, rfl⟩
    · exact hnested d hd u t hu ht hnone

end Listed

/-- What the list of missing names says about the methods of a class. Every name on it is looked up for
the methods and not found. Every name that is looked up and not found is on it, in some spelling,
exactly if the chain itself names the traits that are missing from its traits. Where it does, an
empty list means that every name was found. And the names that are looked up are all that the methods
depend on: an index that answers alike for them gives the same methods. -/
theorem unindexedSupertypes_exact (index : ClassIndex) (name : String) :
    (∀ t ∈ index.unindexedSupertypes name, index.Misses name t) ∧
    ((∀ t, index.Misses name t → Lists (index.unindexedSupertypes name) t) ↔
      index.NestedTraitsNamed name) ∧
    (index.NestedTraitsNamed name → index.unindexedSupertypes name = [] →
      ∀ t, index.LooksUp name t → ∃ d, index.get? t = some d) ∧
    (∀ other : ClassIndex, (∀ t, index.LooksUp name t → other.get? t = index.get? t) →
      other.methodsOf name = index.methodsOf name) := by
  refine ⟨fun t ht => ?_, lists_of_misses_iff, fun hnested hnil t ht => ?_, fun _ => methodsOf_congr⟩
  · obtain ⟨hnamed, hnone⟩ := mem_unindexedSupertypes_iff.mp ht
    exact ⟨hnamed.looksUp, hnone⟩
  · refine Option.ne_none_iff_exists'.mp fun hnone => ?_
    obtain ⟨v, hv, -⟩ := lists_of_misses_iff.mpr hnested t ⟨ht, hnone⟩
    rw [hnil] at hv
    cases hv

/-- A class whose only trait uses a trait that is not indexed. -/
def nestedIndex : ClassIndex where
  decls := [{ name := "A", traits := ["T"] }, { kind := .trait, name := "T", traits := ["U"] }]

/-- The trait of a trait is missed, and nothing is listed. -/
theorem nested_trait_unlisted :
    nestedIndex.Misses "A" "U" ∧ nestedIndex.unindexedSupertypes "A" = [] := by
  have hchain : { name := "A", traits := ["T"] } ∈ nestedIndex.chain "A" :=
    mem_chain_iff.mpr ⟨"A", List.mem_cons_self, rfl⟩
  have hreach : Reachable nestedIndex.traitsOf ["T"] "U" :=
    .step (.start List.mem_cons_self) (by decide +kernel : "U" ∈ nestedIndex.traitsOf "T")
  exact ⟨⟨.trait hchain hreach, by decide +kernel⟩, by decide +kernel⟩

end FacadeStubs.ClassIndex
