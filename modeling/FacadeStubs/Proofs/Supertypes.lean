import FacadeStubs.Proofs.Worklist
import Mathlib.Data.List.Chain

/-!
# Parents and interfaces are what can be reached

The hierarchy of an index is two relations between names: an indexed class *names its parent*
(`ParentStep`), and an indexed declaration *extends* names (`InterfaceStep`). Both may have cycles,
and both may lead to names that are not indexed. The walks over them are shown to compute what can
be reached, no more and no less:

* `climb_isChain`, `climb_fresh`, `climb_closed`: the chain above a class follows the steps one by
  one, meets no key twice, and is left only towards a key that it has met;
* `ancestors_iff`: the parents of a class are what parent steps reach, but for the class itself;
* `interfaces_iff`: its interfaces are what interface steps reach from those that it or a parent
  names;
* `supertypes_reachability`: both, with the two questions that are asked of them.

A chain takes a step only from an indexed name of a new key, so the number of declarations bounds
it. It is the number of edges of the relation that gives each declaration one target.
-/
namespace FacadeStubs.ClassIndex

open Relation

/-- An indexed class and the parent that it names. -/
def ParentStep (index : ClassIndex) (a b : String) : Prop :=
  ∃ d, index.get? a = some d ∧ d.kind = .cls ∧ d.extendsNames.head? = some b

/-- An indexed declaration and a name that it extends. -/
def InterfaceStep (index : ClassIndex) (a b : String) : Prop :=
  ∃ d, index.get? a = some d ∧ b ∈ d.extendsNames

/-- An interface that a class names, or one of its indexed parents, or, for an interface, one that
it extends. -/
def NamesInterface (index : ClassIndex) (name i : String) : Prop :=
  (∃ a d, (a = name ∨ a ∈ index.ancestors name) ∧ index.get? a = some d ∧ i ∈ d.implementsNames) ∨
  ∃ d, index.get? name = some d ∧ d.kind = .interface ∧ i ∈ d.extendsNames

/-- An interface of a class: one that it names, or one above that. -/
def HasInterface (index : ClassIndex) (name i : String) : Prop :=
  ∃ s, index.NamesInterface name s ∧ ReflTransGen index.InterfaceStep s i

/-- Whether a list has a name in some spelling. -/
def Lists (names : List String) (t : String) : Prop := ∃ a ∈ names, classKey a = classKey t

/-! ## Steps -/

theorem parent?_eq_some_iff {index : ClassIndex} {a b : String} :
    index.parent? a = some b ↔ index.ParentStep a b := by
  unfold parent? ParentStep
  cases index.get? a with
  | none => simp
  | some d => by_cases hk : d.kind = .cls <;> simp [hk]

theorem parent?_congr (index : ClassIndex) {a b : String} (h : classKey a = classKey b) :
    index.parent? a = index.parent? b := by
  unfold parent?; rw [get?_congr index h]

theorem extendsOf_congr (index : ClassIndex) {a b : String} (h : classKey a = classKey b) :
    index.extendsOf a = index.extendsOf b := by
  unfold extendsOf; rw [get?_congr index h]

theorem mem_extendsOf_iff {index : ClassIndex} {a b : String} :
    b ∈ index.extendsOf a ↔ index.InterfaceStep a b := by
  unfold extendsOf InterfaceStep
  cases index.get? a <;> simp

theorem mem_implementsOf_iff {index : ClassIndex} {a i : String} :
    i ∈ index.implementsOf a ↔ ∃ d, index.get? a = some d ∧ i ∈ d.implementsNames := by
  unfold implementsOf
  cases index.get? a <;> simp

/-! ## The chain of parents -/

/-- Each name of the chain is the parent that the one before it names. -/
theorem climb_isChain (index : ClassIndex) : ∀ (fuel : Nat) (seen : List String) (name : String),
    (name :: index.climb fuel seen name).IsChain index.ParentStep
  | 0, _, _ => List.IsChain.singleton _
  | fuel + 1, seen, name => by
    simp only [climb]
    split
    · exact List.IsChain.singleton _
    · rename_i p hp
      split
      · exact List.IsChain.singleton _
      · exact .cons_cons (parent?_eq_some_iff.mp hp) (climb_isChain index fuel _ p)

theorem climb_fresh (index : ClassIndex) : ∀ (fuel : Nat) (seen : List String) (name : String),
    ((index.climb fuel seen name).map classKey).Nodup ∧
      ∀ a ∈ index.climb fuel seen name, classKey a ∉ seen
  | 0, _, _ => by simp [climb]
  | fuel + 1, seen, name => by
    simp only [climb]
    split
    · simp
    · rename_i p hp
      split
      · simp
      · rename_i hs
        have hs : classKey p ∉ seen := by simpa using hs
        obtain ⟨hnodup, hfresh⟩ := climb_fresh index fuel (classKey p :: seen) p
        constructor
        · rw [List.map_cons, List.nodup_cons]
          refine ⟨fun hmem => ?_, hnodup⟩
          obtain ⟨a, ha, hk⟩ := List.mem_map.mp hmem
          exact hfresh a ha (List.mem_cons.mpr (Or.inl hk))
        · intro a ha
          rcases List.mem_cons.mp ha with rfl | ha
          · exact hs
          · exact fun hseen => hfresh a ha (List.mem_cons_of_mem _ hseen)

/-- The steps that a chain can still take: one if it stands on a declaration, and one for each
declaration whose key it has not met. -/
def stepsLeft (index : ClassIndex) (seen : List String) (name : String) : Nat :=
  (((index.get? name).map fun d => [d.fqn]).getD []).length +
    unseenEdges (fun d => [d.fqn]) seen index.decls

theorem stepsLeft_start (index : ClassIndex) (name : String) :
    index.stepsLeft [classKey name] name ≤ index.size := by
  have hvisit := @unseenEdges_visit index (fun d => [d.fqn]) [] name List.not_mem_nil
  have hsize : ∀ ds : List ClassDecl, unseenEdges (fun d => [d.fqn]) [] ds = ds.length := by
    intro ds
    induction ds with
    | nil => rfl
    | cons d rest ih => simp [unseenEdges, ih, Nat.add_comm]
  rw [hsize] at hvisit
  exact hvisit

/-- A step to a new key leaves fewer steps. -/
theorem stepsLeft_step {index : ClassIndex} {seen : List String} {a b : String}
    (hstep : index.parent? a = some b) (hs : classKey b ∉ seen) :
    index.stepsLeft (classKey b :: seen) b < index.stepsLeft seen a := by
  have hvisit := unseenEdges_visit index (fun d => [d.fqn]) hs
  obtain ⟨d, hd, -, -⟩ := parent?_eq_some_iff.mp hstep
  unfold stepsLeft
  simp only [hd, Option.map_some, Option.getD_some, List.length_singleton]
  omega

/-- A chain that may take all steps it has left is left only towards keys that it has met. -/
theorem climb_closed (index : ClassIndex) (fuel : Nat) (seen : List String) (name : String)
    (hfuel : index.stepsLeft seen name ≤ fuel) :
    ∀ a ∈ name :: index.climb fuel seen name, ∀ b, index.parent? a = some b →
      classKey b ∈ seen ∨ classKey b ∈ (index.climb fuel seen name).map classKey := by
  induction fuel generalizing seen name with
  | zero =>
    intro a ha b hb
    obtain rfl : a = name := by simpa [climb] using ha
    by_cases hs : classKey b ∈ seen
    · exact Or.inl hs
    · have := stepsLeft_step hb hs
      omega
  | succ fuel ih =>
    simp only [climb]
    split
    · rename_i hnone
      intro a ha b hb
      obtain rfl : a = name := by simpa using ha
      rw [hnone] at hb
      cases hb
    · rename_i p hp
      have hself : ∀ b, index.parent? name = some b → b = p := by
        intro b hb
        rw [hp, Option.some.injEq] at hb
        exact hb.symm
      split
      · rename_i hs
        intro a ha b hb
        obtain rfl : a = name := by simpa using ha
        obtain rfl := hself b hb
        exact Or.inl (by simpa using hs)
      · rename_i hs
        have hless := stepsLeft_step hp (by simpa using hs)
        have hrest := ih (classKey p :: seen) p (by omega)
        intro a ha b hb
        rw [List.map_cons, List.mem_cons]
        rcases List.mem_cons.mp ha with rfl | ha
        · exact Or.inr (Or.inl (congrArg classKey (hself b hb)))
        · rcases hrest a ha b hb with h | h
          · rcases List.mem_cons.mp h with h | h
            · exact Or.inr (Or.inl h)
            · exact Or.inl h
          · exact Or.inr (Or.inr h)

/-- A chain that may take all steps it has left ends by itself. -/
theorem climb_ends (index : ClassIndex) (fuel more : Nat) (seen : List String) (name : String)
    (hfuel : index.stepsLeft seen name ≤ fuel) (hm : fuel ≤ more) :
    index.climb more seen name = index.climb fuel seen name := by
  induction fuel generalizing more seen name with
  | zero =>
    -- No step is left, so the chain has no parent of a new key to go on to.
    cases more with
    | zero => rfl
    | succ more =>
      simp only [climb]
      split
      · rfl
      · rename_i p hp
        rw [ite_eq_left_iff]
        intro hs
        have := stepsLeft_step hp (by simpa using hs)
        omega
  | succ fuel ih =>
    obtain ⟨more, rfl⟩ : ∃ m, more = m + 1 := ⟨more - 1, by omega⟩
    simp only [climb]
    split
    · rfl
    · rename_i p hp
      split
      · rfl
      · rename_i hs
        have hless := stepsLeft_step hp (by simpa using hs)
        rw [ih more (classKey p :: seen) p (by omega) (by omega)]

/-- The parents of a class are the whole chain: a larger bound on the steps changes nothing. -/
theorem ancestors_eq (index : ClassIndex) (name : String) {bound : Nat} (hb : index.size ≤ bound) :
    index.climb bound [classKey name] name = index.ancestors name :=
  climb_ends index _ bound _ name (stepsLeft_start index name) hb

/-- The parents of a class are what parent steps reach, but for the class itself. -/
theorem ancestors_iff (index : ClassIndex) (name t : String) :
    Lists (index.ancestors name) t ↔ classKey t ≠ classKey name ∧
      ∃ u, TransGen index.ParentStep name u ∧ classKey u = classKey t := by
  constructor
  · rintro ⟨a, ha, hk⟩
    refine ⟨fun heq => ?_, a, ?_, hk⟩
    · exact (climb_fresh index _ [classKey name] name).2 a ha (by simp [hk, heq])
    · exact ((climb_isChain index _ _ name).imp fun _ _ => TransGen.single).rel_cons ha
  · rintro ⟨hne, u, hu, hk⟩
    -- Along the steps every key is that of the class or of one of its parents.
    suffices hmet : classKey u = classKey name ∨ classKey u ∈ (index.ancestors name).map classKey by
      rcases hmet with hself | hmem
      · exact absurd (hk.symm.trans hself) hne
      · obtain ⟨a, ha, hka⟩ := List.mem_map.mp hmem
        exact ⟨a, ha, hka.trans hk⟩
    have hclosed := climb_closed index index.size [classKey name] name (stepsLeft_start index name)
    simp only [List.mem_singleton] at hclosed
    clear hk hne
    induction hu with
    | single hstep => exact hclosed name List.mem_cons_self _ (parent?_eq_some_iff.mpr hstep)
    | tail _ hstep ih =>
      have hstep := parent?_eq_some_iff.mpr hstep
      rcases ih with hself | hmem
      · exact hclosed name List.mem_cons_self _ (by rw [parent?_congr index hself.symm, hstep])
      · obtain ⟨a, ha, hka⟩ := List.mem_map.mp hmem
        exact hclosed a (List.mem_cons_of_mem _ ha) _ (by rw [parent?_congr index hka, hstep])

/-! ## Interfaces -/

theorem mem_directInterfaces_iff {index : ClassIndex} {name i : String} :
    i ∈ index.directInterfaces name ↔ index.NamesInterface name i := by
  unfold directInterfaces NamesInterface
  rw [List.mem_append, List.mem_flatMap]
  simp only [mem_implementsOf_iff]
  constructor
  · rintro (hown | ⟨a, ha, d, hd, hi⟩)
    · split at hown
      · rename_i d hd
        rcases List.mem_append.mp hown with hi | hi
        · exact Or.inl ⟨name, d, Or.inl rfl, hd, hi⟩
        · split at hi
          · rename_i hk
            exact Or.inr ⟨d, hd, by simpa using hk, hi⟩
          · cases hi
      · cases hown
    · exact Or.inl ⟨a, d, Or.inr ha, hd, hi⟩
  · rintro (⟨a, d, rfl | ha, hd, hi⟩ | ⟨d, hd, hk, hi⟩)
    · exact Or.inl (by simp [hd, hi])
    · exact Or.inr ⟨a, ha, d, hd, hi⟩
    · exact Or.inl (by simp [hd, hk, hi])

theorem reachable_extendsOf_iff {index : ClassIndex} {name i : String} :
    Reachable index.extendsOf (index.directInterfaces name) i ↔ index.HasInterface name i := by
  constructor
  · intro h
    induction h with
    | start hs => exact ⟨_, mem_directInterfaces_iff.mp hs, .refl⟩
    | step _ hu ih =>
      obtain ⟨s, hs, hreach⟩ := ih
      exact ⟨s, hs, hreach.tail (mem_extendsOf_iff.mp hu)⟩
  · rintro ⟨s, hs, hreach⟩
    induction hreach with
    | refl => exact .start (mem_directInterfaces_iff.mpr hs)
    | tail _ hstep ih => exact .step ih (mem_extendsOf_iff.mpr hstep)

/-- The edges between declarations and what they extend, as far as they are not seen yet. -/
def unseenExtends (index : ClassIndex) (seen : List String) : Nat :=
  unseenEdges (·.extendsNames) seen index.decls

theorem unseenExtends_visit (index : ClassIndex) (seen : List String) (name : String)
    (hs : classKey name ∉ seen) :
    (index.extendsOf name).length + index.unseenExtends (classKey name :: seen) ≤
      index.unseenExtends seen := unseenEdges_visit index (·.extendsNames) hs

theorem unseenExtends_nil (index : ClassIndex) :
    index.unseenExtends [] = index.edges (·.extendsNames) := unseenEdges_nil index _

theorem interfaces_walk (index : ClassIndex) (name : String) :
    Walk index.extendsOf [] (index.directInterfaces name) (index.interfaces name) :=
  breadthFirst_walk index.unseenExtends index.unseenExtends_visit _ [] _
    (by rw [unseenExtends_nil])

/-- The interfaces of a class are the whole search: a larger bound on the steps changes nothing. -/
theorem interfaces_eq (index : ClassIndex) (name : String) {bound : Nat}
    (hb : (index.directInterfaces name).length + index.edges (·.extendsNames) ≤ bound) :
    breadthFirst index.extendsOf bound [] (index.directInterfaces name) = index.interfaces name :=
  breadthFirst_ends index.unseenExtends index.unseenExtends_visit _ bound [] _
    (by rw [unseenExtends_nil]) hb

/-- The interfaces of a class are what interface steps reach from those that it or a parent names. -/
theorem interfaces_iff (index : ClassIndex) (name t : String) :
    Lists (index.interfaces name) t ↔ ∃ u, index.HasInterface name u ∧ classKey u = classKey t := by
  constructor
  · rintro ⟨i, hi, hk⟩
    exact ⟨i, reachable_extendsOf_iff.mp ((interfaces_walk index name).reachable i hi), hk⟩
  · rintro ⟨u, hu, hk⟩
    obtain ⟨i, hi, hki⟩ := (interfaces_walk index name).complete (fun _ _ => extendsOf_congr index)
      (reachable_extendsOf_iff.mpr hu)
    exact ⟨i, hi, hki.trans hk⟩

theorem implements_iff {index : ClassIndex} {name target : String} :
    index.implements name target = true ↔ Lists (index.interfaces name) target := by
  simp [implements, Lists]

theorem isSubclassOf_iff {index : ClassIndex} {name target : String} :
    index.isSubclassOf name target = true ↔ classKey name ≠ classKey target ∧
      (Lists (index.ancestors name) target ∨ Lists (index.interfaces name) target) := by
  simp [isSubclassOf, implements, Lists]

/-- The questions about supertypes are questions of reachability.

The parents of a class form a chain of parent steps from the class, nearest first, with no key twice
and not that of the class, and they are all that parent steps reach but the class itself. Its
interfaces have no key twice, and they are all that interface steps reach from those that it, or an
indexed parent, names. A class implements what is among its interfaces, and is a subclass of what is
among its parents or interfaces and is not itself. On every hierarchy, with cycles or not, the walks
end by themselves: a larger bound on their steps changes nothing. -/
theorem supertypes_reachability (index : ClassIndex) (name : String) :
    ((name :: index.ancestors name).IsChain index.ParentStep ∧
      ((name :: index.ancestors name).map classKey).Nodup ∧
      ∀ t, Lists (index.ancestors name) t ↔ classKey t ≠ classKey name ∧
        ∃ u, TransGen index.ParentStep name u ∧ classKey u = classKey t) ∧
    (((index.interfaces name).map classKey).Nodup ∧
      (∀ i ∈ index.interfaces name, index.HasInterface name i) ∧
      ∀ t, Lists (index.interfaces name) t ↔
        ∃ u, index.HasInterface name u ∧ classKey u = classKey t) ∧
    (∀ i, index.implements name i = true ↔ Lists (index.interfaces name) i) ∧
    (∀ p, index.isSubclassOf name p = true ↔ classKey name ≠ classKey p ∧
      (Lists (index.ancestors name) p ∨ Lists (index.interfaces name) p)) ∧
    (∀ bound ≥ index.size, index.climb bound [classKey name] name = index.ancestors name) ∧
    (∀ bound ≥ (index.directInterfaces name).length + index.edges (·.extendsNames),
      breadthFirst index.extendsOf bound [] (index.directInterfaces name) =
        index.interfaces name) := by
  obtain ⟨hnodup, hfresh⟩ := climb_fresh index index.size [classKey name] name
  have hkeys : ((name :: index.ancestors name).map classKey).Nodup := by
    rw [List.map_cons, List.nodup_cons]
    refine ⟨fun hmem => ?_, hnodup⟩
    obtain ⟨a, ha, hk⟩ := List.mem_map.mp hmem
    exact hfresh a ha (by simp [hk])
  have hwalk := interfaces_walk index name
  refine ⟨⟨climb_isChain index _ _ name, hkeys, ancestors_iff index name⟩,
    ⟨hwalk.nodup, fun i hi => reachable_extendsOf_iff.mp (hwalk.reachable i hi),
      interfaces_iff index name⟩,
    fun _ => implements_iff, fun _ => isSubclassOf_iff, fun _ hb => ancestors_eq index name hb,
    fun _ hb => interfaces_eq index name hb⟩

end FacadeStubs.ClassIndex
