import FacadeStubs.ClassIndex

/-!
# Walks with a worklist

`depthFirst` and `breadthFirst` follow a worklist with the keys they have seen and a bound on their
steps. They differ in where the successors of a name join the worklist, which decides the order of
what is found and nothing else. `Walk` says what both do: a name whose key was seen is left out, and
any other is found and adds its successors.

* `Walk.reachable`: every name found is reachable from the worklist;
* `Walk.nodup`: each key is found once;
* `Walk.complete`: every reachable name is found, perhaps spelled otherwise;
* `depthFirst_walk`, `breadthFirst_walk`: the bound on the steps is enough for a walk to its end;
* `depthFirst_ends`, `breadthFirst_ends`: a larger bound changes nothing.

The bound is the length of the worklist plus the edges of the declarations not seen yet
(`unseenEdges`): a name that was seen leaves the worklist, and one that was not takes its
declaration's edges off the second summand before it adds them to the first.
-/
namespace FacadeStubs.ClassIndex

/-- What can be reached from some names along `next`, in any number of steps. -/
inductive Reachable (next : String → List String) (start : List String) : String → Prop where
  | start {t : String} : t ∈ start → Reachable next start t
  | step {t u : String} : Reachable next start t → u ∈ next t → Reachable next start u

/-- What is reachable from fewer names is reachable from more. -/
theorem Reachable.trans {next : String → List String} {start start' : List String} {t : String}
    (h : Reachable next start t) (hs : ∀ s ∈ start, Reachable next start' s) :
    Reachable next start' t := by
  induction h with
  | start ht => exact hs _ ht
  | step _ hu ih => exact .step ih hu

/-! ## Look-up by key -/

theorem get?_congr (index : ClassIndex) {a b : String} (h : classKey a = classKey b) :
    index.get? a = index.get? b := by
  unfold get?; rw [h]

theorem classKey_of_get? {index : ClassIndex} {name : String} {d : ClassDecl}
    (h : index.get? name = some d) : classKey d.fqn = classKey name := by
  simpa using List.find?_some h

/-- A declaration that is found is the one found by its own name. -/
theorem get?_fqn_of_get? {index : ClassIndex} {name : String} {d : ClassDecl}
    (h : index.get? name = some d) : index.get? d.fqn = some d := by
  rw [get?_congr index (classKey_of_get? h), h]

theorem mem_decls_of_get? {index : ClassIndex} {name : String} {d : ClassDecl}
    (h : index.get? name = some d) : d ∈ index.decls := List.mem_of_find?_eq_some h

/-! ## Edges not seen yet -/

/-- The number of edges of the declarations whose key is not among `seen`. -/
def unseenEdges (targets : ClassDecl → List String) (seen : List String) : List ClassDecl → Nat
  | [] => 0
  | d :: rest =>
    (if seen.contains (classKey d.fqn) then 0 else (targets d).length) +
      unseenEdges targets seen rest

theorem unseenEdges_nil (index : ClassIndex) (targets : ClassDecl → List String) :
    unseenEdges targets [] index.decls = index.edges targets := by
  unfold edges
  induction index.decls with
  | nil => rfl
  | cons d rest ih => simp [unseenEdges, ih]

theorem unseenEdges_mono (targets : ClassDecl → List String) (seen : List String) (k : String)
    (ds : List ClassDecl) : unseenEdges targets (k :: seen) ds ≤ unseenEdges targets seen ds := by
  induction ds with
  | nil => exact Nat.le_refl _
  | cons d rest ih =>
    simp only [unseenEdges, List.contains_cons]
    cases classKey d.fqn == k <;> cases seen.contains (classKey d.fqn) <;> simp <;> omega

/-- Seeing a key takes the edges of a declaration with that key off. -/
theorem unseenEdges_see (targets : ClassDecl → List String) {seen : List String} {d : ClassDecl}
    {ds : List ClassDecl} (hd : d ∈ ds) (hs : classKey d.fqn ∉ seen) :
    (targets d).length + unseenEdges targets (classKey d.fqn :: seen) ds ≤
      unseenEdges targets seen ds := by
  induction ds with
  | nil => cases hd
  | cons e rest ih =>
    simp only [unseenEdges, List.contains_cons]
    rcases List.mem_cons.mp hd with rfl | hd
    · have := unseenEdges_mono targets seen (classKey d.fqn) rest
      simp [hs]; omega
    · have := ih hd
      cases classKey e.fqn == classKey d.fqn <;> cases seen.contains (classKey e.fqn) <;>
        simp <;> omega

/-- The names behind an indexed name, under a relation that its declaration gives. -/
theorem unseenEdges_visit (index : ClassIndex) (targets : ClassDecl → List String)
    {seen : List String} {name : String} (hs : classKey name ∉ seen) :
    (((index.get? name).map targets).getD []).length +
        unseenEdges targets (classKey name :: seen) index.decls ≤
      unseenEdges targets seen index.decls := by
  cases h : index.get? name with
  | none => simpa using unseenEdges_mono targets seen (classKey name) index.decls
  | some d =>
    have hk := classKey_of_get? h
    rw [← hk] at hs ⊢
    simpa using unseenEdges_see targets (mem_decls_of_get? h) hs

/-! ## Walks -/

/-- A walk from some seen keys and a worklist, with what it finds. A name that was seen is left out;
any other is found, and its successors join the worklist at whatever places. -/
inductive Walk (next : String → List String) :
    List String → List String → List String → Prop where
  | done {seen : List String} : Walk next seen [] []
  | skip {seen work found : List String} {name : String} : classKey name ∈ seen →
      Walk next seen work found → Walk next seen (name :: work) found
  | visit {seen work work' found : List String} {name : String} : classKey name ∉ seen →
      (∀ u, u ∈ work' ↔ u ∈ next name ∨ u ∈ work) →
      Walk next (classKey name :: seen) work' found → Walk next seen (name :: work) (name :: found)

namespace Walk

variable {next : String → List String} {seen work found : List String}

/-- Every name found is reachable from the worklist. -/
theorem reachable (h : Walk next seen work found) : ∀ t ∈ found, Reachable next work t := by
  induction h with
  | done => intro t ht; cases ht
  | skip _ _ ih =>
    intro t ht
    exact (ih t ht).trans fun s hs => .start (List.mem_cons_of_mem _ hs)
  | visit _ hwork _ ih =>
    intro t ht
    rcases List.mem_cons.mp ht with rfl | ht
    · exact .start List.mem_cons_self
    · refine (ih t ht).trans fun s hs => ?_
      rcases (hwork s).mp hs with hs | hs
      · exact .step (.start List.mem_cons_self) hs
      · exact .start (List.mem_cons_of_mem _ hs)

/-- No key that was seen is found. -/
theorem fresh (h : Walk next seen work found) : ∀ t ∈ found, classKey t ∉ seen := by
  induction h with
  | done => intro t ht; cases ht
  | skip _ _ ih => exact ih
  | visit hs _ _ ih =>
    intro t ht
    rcases List.mem_cons.mp ht with rfl | ht
    · exact hs
    · exact fun hseen => ih t ht (List.mem_cons_of_mem _ hseen)

/-- Each key is found once. -/
theorem nodup (h : Walk next seen work found) : (found.map classKey).Nodup := by
  induction h with
  | done => exact List.nodup_nil
  | skip _ _ ih => exact ih
  | visit _ _ hrest ih =>
    rw [List.map_cons, List.nodup_cons]
    refine ⟨fun hmem => ?_, ih⟩
    obtain ⟨t, ht, hk⟩ := List.mem_map.mp hmem
    exact hrest.fresh t ht (List.mem_cons.mpr (Or.inl hk))

/-- What is found or was seen covers the worklist and all successors of what is found. -/
theorem closed (h : Walk next seen work found) :
    ∀ u, (u ∈ work ∨ ∃ t ∈ found, u ∈ next t) →
      classKey u ∈ seen ∨ classKey u ∈ found.map classKey := by
  induction h with
  | done => simp
  | skip hs _ ih =>
    rintro u (hu | hu)
    · rcases List.mem_cons.mp hu with rfl | hu
      · exact Or.inl hs
      · exact ih u (Or.inl hu)
    · exact ih u (Or.inr hu)
  | @visit seen work _ found name _ hwork _ ih =>
    -- A key seen behind `name` is that of `name`, which is found here, or was seen before.
    have lift : ∀ u, classKey u ∈ classKey name :: seen ∨ classKey u ∈ found.map classKey →
        classKey u ∈ seen ∨ classKey u ∈ (name :: found).map classKey := by
      intro u hu
      simp only [List.map_cons, List.mem_cons] at hu ⊢
      rcases hu with (hk | hseen) | hfound
      · exact Or.inr (Or.inl hk)
      · exact Or.inl hseen
      · exact Or.inr (Or.inr hfound)
    rintro u (hu | ⟨t, ht, hu⟩)
    · rcases List.mem_cons.mp hu with rfl | hu
      · exact Or.inr (List.mem_map_of_mem List.mem_cons_self)
      · exact lift u (ih u (Or.inl ((hwork u).mpr (Or.inr hu))))
    · rcases List.mem_cons.mp ht with rfl | ht
      · exact lift u (ih u (Or.inl ((hwork u).mpr (Or.inl hu))))
      · exact lift u (ih u (Or.inr ⟨t, ht, hu⟩))

/-- Every reachable name is found, perhaps spelled otherwise. -/
theorem complete (h : Walk next [] work found)
    (hcongr : ∀ a b, classKey a = classKey b → next a = next b) {t : String}
    (ht : Reachable next work t) : ∃ u ∈ found, classKey u = classKey t := by
  suffices hmem : classKey t ∈ found.map classKey from List.mem_map.mp hmem
  induction ht with
  | start ht => simpa using h.closed _ (Or.inl ht)
  | step _ hu ih =>
    obtain ⟨v, hv, hk⟩ := List.mem_map.mp ih
    rw [← hcongr _ _ hk] at hu
    simpa using h.closed _ (Or.inr ⟨v, hv, hu⟩)

end Walk

/-! ## The two orders -/

section Order

variable {next : String → List String} (rest : List String → Nat)
  (hvisit : ∀ seen name, classKey name ∉ seen →
    (next name).length + rest (classKey name :: seen) ≤ rest seen)

include hvisit

/-- With enough fuel the depth-first search walks to its end. `rest` measures the edges not seen
yet. -/
theorem depthFirst_walk : ∀ (fuel : Nat) (seen work : List String), work.length + rest seen ≤ fuel →
    Walk next seen work (depthFirst next fuel seen work)
  | 0, _, work, h => by
    have : work = [] := List.eq_nil_of_length_eq_zero (by omega)
    subst this
    exact .done
  | _ + 1, _, [], _ => .done
  | fuel + 1, seen, name :: work, h => by
    rw [List.length_cons] at h
    simp only [depthFirst]
    split
    · rename_i hs
      exact .skip (by simpa using hs) (depthFirst_walk fuel seen work (by omega))
    · rename_i hs
      have hs : classKey name ∉ seen := by simpa using hs
      have hedges := hvisit seen name hs
      refine .visit hs (fun u => List.mem_append) (depthFirst_walk fuel _ _ ?_)
      rw [List.length_append]
      omega

/-- More fuel than enough makes no difference to the depth-first search: it has ended by itself. -/
theorem depthFirst_ends : ∀ (fuel more : Nat) (seen work : List String),
    work.length + rest seen ≤ fuel → fuel ≤ more →
    depthFirst next more seen work = depthFirst next fuel seen work
  | 0, more, _, work, h, _ => by
    have : work = [] := List.eq_nil_of_length_eq_zero (by omega)
    subst this
    cases more <;> rfl
  | _ + 1, 0, _, _, _, hm => absurd hm (by omega)
  | _ + 1, _ + 1, _, [], _, _ => rfl
  | fuel + 1, more + 1, seen, name :: work, h, hm => by
    rw [List.length_cons] at h
    simp only [depthFirst]
    split
    · exact depthFirst_ends fuel more seen work (by omega) (by omega)
    · rename_i hs
      have hedges := hvisit seen name (by simpa using hs)
      rw [depthFirst_ends fuel more _ (next name ++ work) ?_ (by omega)]
      rw [List.length_append]
      omega

/-- With enough fuel the breadth-first search walks to its end. -/
theorem breadthFirst_walk : ∀ (fuel : Nat) (seen work : List String),
    work.length + rest seen ≤ fuel → Walk next seen work (breadthFirst next fuel seen work)
  | 0, _, work, h => by
    have : work = [] := List.eq_nil_of_length_eq_zero (by omega)
    subst this
    exact .done
  | _ + 1, _, [], _ => .done
  | fuel + 1, seen, name :: work, h => by
    rw [List.length_cons] at h
    simp only [breadthFirst]
    split
    · rename_i hs
      exact .skip (by simpa using hs) (breadthFirst_walk fuel seen work (by omega))
    · rename_i hs
      have hs : classKey name ∉ seen := by simpa using hs
      have hedges := hvisit seen name hs
      refine .visit hs (fun u => ?_) (breadthFirst_walk fuel _ _ ?_)
      · rw [List.mem_append, or_comm]
      · rw [List.length_append]
        omega

/-- More fuel than enough makes no difference: the search has ended by itself. -/
theorem breadthFirst_ends : ∀ (fuel more : Nat) (seen work : List String),
    work.length + rest seen ≤ fuel → fuel ≤ more →
    breadthFirst next more seen work = breadthFirst next fuel seen work
  | 0, more, _, work, h, _ => by
    have : work = [] := List.eq_nil_of_length_eq_zero (by omega)
    subst this
    cases more <;> rfl
  | _ + 1, 0, _, _, _, hm => absurd hm (by omega)
  | _ + 1, _ + 1, _, [], _, _ => rfl
  | fuel + 1, more + 1, seen, name :: work, h, hm => by
    rw [List.length_cons] at h
    simp only [breadthFirst]
    split
    · exact breadthFirst_ends fuel more seen work (by omega) (by omega)
    · rename_i hs
      have hedges := hvisit seen name (by simpa using hs)
      rw [breadthFirst_ends fuel more _ (work ++ next name) ?_ (by omega)]
      rw [List.length_append]
      omega

end Order

/-- The depth-first search asks for the successors of what it finds and of nothing else. -/
theorem depthFirst_congr {next next' : String → List String} : ∀ (fuel : Nat) (seen work : List String),
    (∀ t ∈ depthFirst next fuel seen work, next' t = next t) →
    depthFirst next' fuel seen work = depthFirst next fuel seen work
  | 0, _, _, _ => rfl
  | _ + 1, _, [], _ => rfl
  | fuel + 1, seen, name :: work, h => by
    simp only [depthFirst] at h ⊢
    split
    · rename_i hs
      rw [if_pos hs] at h
      exact depthFirst_congr fuel seen work h
    · rename_i hs
      rw [if_neg hs] at h
      rw [h name List.mem_cons_self,
        depthFirst_congr fuel _ _ fun t ht => h t (List.mem_cons_of_mem _ ht)]

end FacadeStubs.ClassIndex
