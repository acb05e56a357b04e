import Mathlib.Data.List.Induction

/-!
# Lists of pairs as maps

A map whose keys have an order is a list of pairs. Putting a pair into it takes the place of the one
that has the key, or the place behind all others.

Results:
* `putAll_keys`, `putAll_nodup`: the keys are all different, in the order in which they came.
* `putAll_putAll`: putting pairs in first by one key and then by another one is putting them in by the
  other one at once, unless two pairs of one first key stand around a pair that has another first key
  but the same second one.
-/
namespace FacadeStubs.Export

section
variable {κ α β : Type} [DecidableEq κ]

/-- Puts a value under its key: in place of an earlier one, else at the end. -/
def put (k : κ) (a : α) : List (κ × α) → List (κ × α)
  | [] => [(k, a)]
  | (k', b) :: rest => if k' = k then (k', a) :: rest else (k', b) :: put k a rest

/-- Puts in all pairs, one behind the other. -/
def putAll (left pairs : List (κ × α)) : List (κ × α) :=
  pairs.foldl (fun left pair => put pair.1 pair.2 left) left

theorem put_cons_self (k : κ) (a b : α) (pairs : List (κ × α)) :
    put k a ((k, b) :: pairs) = (k, a) :: pairs := if_pos rfl

theorem put_cons_ne {k j : κ} (h : j ≠ k) (a b : α) (pairs : List (κ × α)) :
    put k a ((j, b) :: pairs) = (j, b) :: put k a pairs := if_neg h

theorem put_of_mem {k : κ} {a b : α} {front back : List (κ × α)} (h : k ∉ front.map Prod.fst) :
    put k a (front ++ (k, b) :: back) = front ++ (k, a) :: back := by
  induction front with
  | nil => exact put_cons_self k a b back
  | cons pair front ih =>
    rw [List.map_cons, List.mem_cons, not_or] at h
    rw [List.cons_append, put_cons_ne (Ne.symm h.1), ih h.2, List.cons_append]

theorem put_of_not_mem {k : κ} {a : α} {pairs : List (κ × α)} (h : k ∉ pairs.map Prod.fst) :
    put k a pairs = pairs ++ [(k, a)] := by
  induction pairs with
  | nil => rfl
  | cons pair pairs ih =>
    rw [List.map_cons, List.mem_cons, not_or] at h
    rw [put_cons_ne (Ne.symm h.1), ih h.2, List.cons_append]

/-- A key that a map has stands in one place of it. -/
theorem exists_place {k : κ} {pairs : List (κ × α)} (h : k ∈ pairs.map Prod.fst) :
    ∃ front b back, pairs = front ++ (k, b) :: back ∧ k ∉ front.map Prod.fst := by
  induction pairs with
  | nil => cases h
  | cons pair pairs ih =>
    obtain ⟨j, b⟩ := pair
    by_cases hj : k = j
    · exact ⟨[], b, pairs, by rw [hj]; rfl, List.not_mem_nil⟩
    · obtain ⟨front, c, back, rfl, hfront⟩ := ih ((List.mem_cons.1 h).resolve_left hj)
      exact ⟨(j, b) :: front, c, back, rfl, by
        rw [List.map_cons, List.mem_cons, not_or]
        exact ⟨hj, hfront⟩⟩

theorem put_keys (k : κ) (a : α) (pairs : List (κ × α)) :
    (put k a pairs).map Prod.fst =
      if k ∈ pairs.map Prod.fst then pairs.map Prod.fst else pairs.map Prod.fst ++ [k] := by
  split
  · rename_i h
    obtain ⟨front, b, back, rfl, hfront⟩ := exists_place h
    rw [put_of_mem hfront, List.map_append, List.map_append, List.map_cons, List.map_cons]
  · rename_i h
    rw [put_of_not_mem h, List.map_append]
    rfl

theorem mem_put_keys (k : κ) (a : α) (pairs : List (κ × α)) : k ∈ (put k a pairs).map Prod.fst := by
  rw [put_keys]
  split
  · assumption
  · exact List.mem_append_right _ List.mem_cons_self

theorem put_put (k : κ) (a b : α) (pairs : List (κ × α)) :
    put k a (put k b pairs) = put k a pairs := by
  by_cases h : k ∈ pairs.map Prod.fst
  · obtain ⟨front, c, back, rfl, hfront⟩ := exists_place h
    rw [put_of_mem hfront, put_of_mem hfront, put_of_mem hfront]
  · rw [put_of_not_mem h, put_of_not_mem h, put_of_mem h]

/-- A key that stands in the map already takes a value before or after another one. -/
theorem put_comm {k k' : κ} (hk : k ≠ k') (a b : α) {pairs : List (κ × α)}
    (h : k ∈ pairs.map Prod.fst) : put k a (put k' b pairs) = put k' b (put k a pairs) := by
  induction pairs with
  | nil => cases h
  | cons pair pairs ih =>
    obtain ⟨j, c⟩ := pair
    by_cases hj : j = k
    · subst hj
      rw [put_cons_ne hk, put_cons_self, put_cons_self, put_cons_ne hk]
    have hmem : k ∈ pairs.map Prod.fst := (List.mem_cons.1 h).resolve_left (Ne.symm hj)
    by_cases hj' : j = k'
    · subst hj'
      rw [put_cons_self, put_cons_ne hj, put_cons_ne hj, put_cons_self]
    · rw [put_cons_ne hj', put_cons_ne hj, put_cons_ne hj, put_cons_ne hj', ih hmem]

theorem putAll_concat (left pairs : List (κ × α)) (pair : κ × α) :
    putAll left (pairs ++ [pair]) = put pair.1 pair.2 (putAll left pairs) := by
  rw [putAll, List.foldl_append]
  rfl

theorem putAll_append (left front back : List (κ × α)) :
    putAll left (front ++ back) = putAll (putAll left front) back := by
  rw [putAll, List.foldl_append]
  rfl

/-- Pairs under other keys do not mind when a key of the map takes its value. -/
theorem put_putAll {k : κ} (a : α) {pairs left : List (κ × α)} (hpairs : ∀ p ∈ pairs, p.1 ≠ k)
    (hleft : k ∈ left.map Prod.fst) : put k a (putAll left pairs) = putAll (put k a left) pairs := by
  induction pairs generalizing left with
  | nil => rfl
  | cons pair pairs ih =>
    rw [List.forall_mem_cons] at hpairs
    have hmem : k ∈ (put pair.1 pair.2 left).map Prod.fst := by
      rw [put_keys]
      split
      · exact hleft
      · exact List.mem_append_left _ hleft
    have hcomm := put_comm (Ne.symm hpairs.1) a pair.2 hleft
    show put k a (putAll (put pair.1 pair.2 left) pairs) = _
    rw [ih hpairs.2 hmem, hcomm]
    rfl

/-- The keys of a map that pairs were put into come up in the order of the pairs. -/
theorem putAll_keys_sublist (pairs : List (κ × α)) :
    ((putAll [] pairs).map Prod.fst).Sublist (pairs.map Prod.fst) := by
  induction pairs using List.reverseRecOn with
  | nil => simp [putAll]
  | append_singleton pairs pair ih =>
    rw [putAll_concat, put_keys, List.map_append]
    split
    · exact ih.trans (List.sublist_append_left _ _)
    · exact ih.append (List.Sublist.refl _)

theorem putAll_nodup (pairs : List (κ × α)) : ((putAll [] pairs).map Prod.fst).Nodup := by
  induction pairs using List.reverseRecOn with
  | nil => exact List.nodup_nil
  | append_singleton pairs pair ih =>
    rw [putAll_concat, put_keys]
    split
    · exact ih
    · rename_i hnew
      refine List.nodup_append.2 ⟨ih, List.pairwise_singleton _ _, fun k hk j hj => ?_⟩
      rw [List.mem_singleton.1 hj]
      exact fun hkj => hnew (hkj ▸ hk)

/-- The keys are those of the pairs, in order of first occurrence. -/
theorem putAll_keys (pairs : List (κ × α)) :
    (putAll [] pairs).map Prod.fst = (pairs.map Prod.fst).eraseDups := by
  induction pairs using List.reverseRecOn with
  | nil => rfl
  | append_singleton pairs pair ih =>
    rw [putAll_concat, put_keys, ih, List.map_append, List.map_singleton, List.eraseDups_append]
    by_cases h : pair.1 ∈ pairs.map Prod.fst
    · simp [List.removeAll, h]
    · simp [List.removeAll, List.eraseDups_cons, h]

theorem mem_put {k : κ} {a : α} {pairs : List (κ × α)} {p : κ × α} (h : p ∈ put k a pairs) :
    p = (k, a) ∨ p ∈ pairs := by
  induction pairs with
  | nil => exact .inl (List.mem_singleton.1 h)
  | cons pair pairs ih =>
    obtain ⟨j, c⟩ := pair
    by_cases hj : j = k
    · subst hj
      rw [put_cons_self, List.mem_cons] at h
      exact h.imp_right (List.mem_cons_of_mem _)
    · rw [put_cons_ne hj, List.mem_cons] at h
      obtain rfl | h := h
      · exact .inr List.mem_cons_self
      · exact (ih h).imp_right (List.mem_cons_of_mem _)

theorem mem_of_mem_putAll {pairs : List (κ × α)} {p : κ × α} (h : p ∈ putAll [] pairs) : p ∈ pairs := by
  induction pairs using List.reverseRecOn with
  | nil => simp [putAll] at h
  | append_singleton pairs pair ih =>
    rw [putAll_concat] at h
    obtain rfl | h := mem_put h
    · exact List.mem_append_right _ List.mem_cons_self
    · exact List.mem_append_left _ (ih h)

theorem put_map (f : α → β) (k : κ) (a : α) (pairs : List (κ × α)) :
    (put k a pairs).map (Prod.map id f) = put k (f a) (pairs.map (Prod.map id f)) := by
  induction pairs with
  | nil => rfl
  | cons pair pairs ih =>
    obtain ⟨j, c⟩ := pair
    by_cases hj : j = k
    · subst hj
      rw [put_cons_self]
      exact (put_cons_self _ _ _ _).symm
    · rw [put_cons_ne hj, List.map_cons, ih]
      exact (put_cons_ne hj _ _ _).symm

/-- Values may be changed before or after they are put in. -/
theorem putAll_map (f : α → β) (pairs : List (κ × α)) :
    (putAll [] pairs).map (Prod.map id f) = putAll [] (pairs.map (Prod.map id f)) := by
  induction pairs using List.reverseRecOn with
  | nil => rfl
  | append_singleton pairs pair ih =>
    rw [putAll_concat, put_map, ih, List.map_append, List.map_singleton, putAll_concat]
    rfl

end

/-! ## Two keys -/

section
variable {ξ κ α β : Type} [DecidableEq ξ] [DecidableEq κ]

/-- Putting pairs in by their first key and then by their second one is putting them in by their
second one, if pairs of one first key have one second key, and no pair between two of them has that
second key and another first one. -/
theorem putAll_putAll (f : α → κ × β) {items : List (ξ × α)}
    (hsame : ∀ p ∈ items, ∀ q ∈ items, p.1 = q.1 → (f p.2).1 = (f q.2).1)
    (hbetween : ∀ p q r, [p, q, r].Sublist items → p.1 = r.1 → (f q.2).1 = (f p.2).1 → q.1 = p.1) :
    putAll [] ((putAll [] items).map fun p => f p.2) = putAll [] (items.map fun p => f p.2) := by
  induction items using List.reverseRecOn with
  | nil => rfl
  | append_singleton items last ih =>
    have ih := ih (fun p hp q hq => hsame p (List.mem_append_left _ hp) q (List.mem_append_left _ hq))
      fun p q r h => hbetween p q r (h.trans (List.sublist_append_left _ _))
    rw [putAll_concat, List.map_append, List.map_cons, List.map_nil, putAll_concat, ← ih]
    by_cases hlast : last.1 ∈ (putAll [] items).map Prod.fst
    · obtain ⟨front, a, back, heq, hfront⟩ := exists_place hlast
      have hmem : ∀ p ∈ putAll [] items, p ∈ items := fun p hp => mem_of_mem_putAll hp
      have hend : last ∈ items ++ [last] := List.mem_append_right _ List.mem_cons_self
      have hplace : (last.1, a) ∈ items :=
        hmem _ (heq ▸ List.mem_append_right _ List.mem_cons_self)
      have hkey : (f a).1 = (f last.2).1 := hsame _ (List.mem_append_left _ hplace) last hend rfl
      -- nothing behind the place has the second key, for it would stand between the two
      have hback : ∀ p ∈ back.map fun p => f p.2, p.1 ≠ (f last.2).1 := by
        rintro _ hp hpkey
        obtain ⟨q, hq, rfl⟩ := List.mem_map.1 hp
        have hkeys : [last.1, q.1].Sublist (items.map Prod.fst) := by
          refine List.Sublist.trans ?_ (putAll_keys_sublist items)
          rw [heq, List.map_append, List.map_cons]
          have hq' : [q.1].Sublist (back.map Prod.fst) :=
            List.singleton_sublist.2 (List.mem_map_of_mem hq)
          exact (hq'.cons_cons last.1).trans (List.sublist_append_right _ _)
        obtain ⟨pairs, hpairs, hmap⟩ := List.sublist_map_iff.1 hkeys
        obtain ⟨p₁, rest, rfl, hp₁, hrest⟩ := List.map_eq_cons_iff.1 hmap.symm
        obtain ⟨p₂, rest, rfl, hp₂, hnil⟩ := List.map_eq_cons_iff.1 hrest
        obtain rfl := List.map_eq_nil_iff.1 hnil
        have hsub : [p₁, p₂, last].Sublist (items ++ [last]) := hpairs.append (List.Sublist.refl [last])
        have hmem₁ := List.mem_append_left [last] (hpairs.subset (List.mem_cons_self (l := [p₂])))
        have hmem₂ := List.mem_append_left [last]
          (hpairs.subset (List.mem_cons_of_mem p₁ (List.mem_cons_self (l := []))))
        have hqmem := List.mem_append_left [last]
          (hmem q (heq ▸ List.mem_append_right _ (List.mem_cons_of_mem _ hq)))
        have h₁ := hsame p₁ hmem₁ last hend hp₁
        have h₂ := hsame p₂ hmem₂ q hqmem hp₂
        have heq' := hbetween p₁ p₂ last hsub hp₁ (by rw [h₂, hpkey, h₁])
        have hnodup := putAll_nodup items
        rw [heq, List.map_append, List.map_cons] at hnodup
        have hnot := (List.nodup_cons.1 (List.nodup_append.1 hnodup).2.1).1
        refine hnot ?_
        show last.1 ∈ back.map Prod.fst
        rw [← hp₁, ← heq', hp₂]
        exact List.mem_map_of_mem hq
      rw [heq, put_of_mem hfront, List.map_append, List.map_append, List.map_cons, List.map_cons,
        putAll_append, putAll_append]
      show putAll (put (f last.2).1 (f last.2).2 _) _ = put _ _ (putAll (put (f a).1 (f a).2 _) _)
      rw [hkey, put_putAll _ hback (mem_put_keys _ _ _), put_put]
    · rw [put_of_not_mem hlast, List.map_append, List.map_cons, List.map_nil, putAll_concat]

end

end FacadeStubs.Export
