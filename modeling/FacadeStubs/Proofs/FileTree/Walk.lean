import FacadeStubs.Proofs.FileTree.Sight

/-!
# What a walk finds after a change

A walk lists the files below a directory in the order of their names. Where only some places are of
interest (`keep`), a change elsewhere does not show: not in the files that are listed, and not in
their order.

* `filter_mergeSort`: sorting is stable, so a list may be thinned out before or after it is sorted;
* `filesBelow_entered`: a walk goes through directories only that may be entered;
* `filesBelow_congr`: a walk, seen through `keep`, depends only on what each name contributes to it;
* `SameWalk`: the walks from every directory of a tree show the same in another tree;
* `sameWalk_put`, `sameWalk_remove`: putting or removing an entry that does not show keeps all walks.
-/
namespace FacadeStubs

/-! ## Stable sorting -/

section Sorting

variable {α : Type} {le : α → α → Bool}

/-- A list that goes over from `p` to not `p` does so in one place only. -/
theorem append_inj_of_switch {p : α → Bool} {a b a' b' : List α} (h : a ++ b = a' ++ b')
    (ha : ∀ x ∈ a, p x = true) (hb : ∀ x ∈ b, p x = false) (ha' : ∀ x ∈ a', p x = true)
    (hb' : ∀ x ∈ b', p x = false) : a = a' ∧ b = b' := by
  have htake : ∀ {a b : List α}, (∀ x ∈ a, p x = true) → (∀ x ∈ b, p x = false) →
      (a ++ b).filter p = a ∧ (a ++ b).filter (fun x => !p x) = b := by
    intro a b ha hb
    simp only [List.filter_append]
    rw [List.filter_eq_self.mpr ha, List.filter_eq_nil_iff.mpr (by simpa using hb),
      List.filter_eq_nil_iff.mpr (by simpa using ha),
      List.filter_eq_self.mpr (by simpa using hb)]
    simp
  obtain ⟨h₁, h₂⟩ := htake ha hb
  obtain ⟨h₁', h₂'⟩ := htake ha' hb'
  rw [h] at h₁ h₂
  exact ⟨h₁.symm.trans h₁', h₂.symm.trans h₂'⟩

/-- A stable sort keeps the order of what is picked out of a list. -/
theorem filter_mergeSort (trans : ∀ a b c, le a b → le b c → le a c)
    (total : ∀ a b, le a b || le b a) (p : α → Bool) :
    ∀ l : List α, (l.mergeSort le).filter p = (l.filter p).mergeSort le
  | [] => by simp
  | a :: l => by
    obtain ⟨l₁, l₂, hsort, hrest, hbefore⟩ := List.mergeSort_cons trans total a l
    have ih := filter_mergeSort trans total p l
    rw [hrest, List.filter_append] at ih
    by_cases hp : p a
    · obtain ⟨m₁, m₂, hsort', hrest', hbefore'⟩ := List.mergeSort_cons trans total a (l.filter p)
      -- Both sorts put `a` in front of all that is not less than it.
      have hbehind : ∀ x ∈ l₂, le a x = true := by
        have hs := List.pairwise_mergeSort trans total (a :: l)
        rw [hsort, List.pairwise_append, List.pairwise_cons] at hs
        exact hs.2.1.1
      have hbehind' : ∀ x ∈ m₂, le a x = true := by
        have hs := List.pairwise_mergeSort trans total (a :: l.filter p)
        rw [hsort', List.pairwise_append, List.pairwise_cons] at hs
        exact hs.2.1.1
      obtain ⟨h₁, h₂⟩ := append_inj_of_switch (p := fun x => !le a x) (ih.trans hrest')
        (fun x hx => hbefore x (List.mem_filter.mp hx).1)
        (fun x hx => by simp [hbehind x (List.mem_filter.mp hx).1]) hbefore'
        (fun x hx => by simp [hbehind' x hx])
      rw [hsort, List.filter_append, List.filter_cons_of_pos hp, List.filter_cons_of_pos hp, hsort',
        h₁, h₂]
    · rw [hsort, List.filter_append, List.filter_cons_of_neg hp, List.filter_cons_of_neg hp, ih]

end Sorting

namespace Entry

/-! ## Contributions -/

/-- The files that an entry stands for in the walk of the directory that has it. -/
def filesAt (enter : String → Bool) (name : String) : Entry → List (Place × Bytes)
  | file content => [([name], content)]
  | dir entries =>
    (if enter name then filesBelow enter (dir entries) else []).map fun f => (name :: f.1, f.2)

theorem filesOf_eq (enter : String → Bool) : ∀ entries : List (String × Entry),
    filesOf enter entries = entries.map fun x => (x.1, filesAt enter x.1 x.2)
  | [] => by simp [filesOf]
  | (_, file _) :: rest => by simp [filesOf, filesAt, filesOf_eq enter rest]
  | (_, dir _) :: rest => by simp [filesOf, filesAt, filesOf_eq enter rest]

theorem filesBelow_dir (enter : String → Bool) (entries : List (String × Entry)) :
    filesBelow enter (dir entries) =
      (byName (entries.map fun x => (x.1, filesAt enter x.1 x.2))).flatMap (·.2) := by
  rw [filesBelow, filesOf_eq]

/-- Files that stand in a directory by name are listed as they stand. -/
theorem filesBelow_of_files (enter : String → Bool) {files : List (String × Bytes)}
    (h : files.Pairwise fun f g => f.1 ≤ g.1) :
    filesBelow enter (dir (files.map fun f => (f.1, file f.2))) = files.map fun f => ([f.1], f.2) := by
  have hsorted : byName (files.map fun f => (f.1, filesAt enter f.1 (file f.2))) =
      files.map fun f => (f.1, [([f.1], f.2)]) :=
    List.mergeSort_of_pairwise (List.pairwise_map.2 (h.imp fun hle => decide_eq_true hle))
  rw [filesBelow_dir, List.map_map]
  refine (congrArg (List.flatMap Prod.snd) hsorted).trans ?_
  rw [List.flatMap_map, List.map_eq_flatMap]

mutual

/-- A walk goes through directories only that may be entered. -/
theorem filesBelow_entered (enter : String → Bool) : ∀ e : Entry, ∀ f ∈ filesBelow enter e,
    f.1 ≠ [] ∧ ∀ n ∈ f.1.dropLast, enter n = true
  | file _, f, hf => by simp [filesBelow] at hf
  | dir entries, f, hf => by
    rw [filesBelow] at hf
    obtain ⟨x, hx, hf⟩ := List.mem_flatMap.mp hf
    exact filesOf_entered enter entries x (List.mem_mergeSort.mp hx) f hf

theorem filesOf_entered (enter : String → Bool) : ∀ entries : List (String × Entry),
    ∀ x ∈ filesOf enter entries, ∀ f ∈ x.2, f.1 ≠ [] ∧ ∀ n ∈ f.1.dropLast, enter n = true
  | [], x, hx => by simp [filesOf] at hx
  | (n, file content) :: rest, x, hx => by
    simp only [filesOf, List.mem_cons] at hx
    rcases hx with rfl | hx
    · simp
    · exact filesOf_entered enter rest x hx
  | (n, dir entries) :: rest, x, hx => by
    simp only [filesOf, List.mem_cons] at hx
    rcases hx with rfl | hx
    · intro f hf
      obtain ⟨g, hg, rfl⟩ := List.mem_map.mp hf
      cases hn : enter n with
      | false => simp [hn] at hg
      | true =>
        rw [hn, if_pos rfl] at hg
        obtain ⟨hne, hall⟩ := filesBelow_entered enter (dir entries) g hg
        rw [List.dropLast_cons_of_ne_nil hne]
        exact ⟨by simp, List.forall_mem_cons.mpr ⟨hn, hall⟩⟩
    · exact filesOf_entered enter rest x hx

end

/-- What shows of contributions through `keep`, without those of which nothing shows. -/
def shown (keep : Place → Bool) (xs : List (String × List (Place × Bytes))) :
    List (String × List (Place × Bytes)) :=
  (xs.map fun x => (x.1, x.2.filter fun f => keep f.1)).filter fun x => !x.2.isEmpty

/-- What shows of a walk is the walk over what shows of the contributions. -/
theorem filter_flatMap_byName (keep : Place → Bool) (xs : List (String × List (Place × Bytes))) :
    ((byName xs).flatMap (·.2)).filter (fun f => keep f.1) =
      (byName (shown keep xs)).flatMap (·.2) := by
  have hempty : ∀ ys : List (String × List (Place × Bytes)),
      ys.flatMap (·.2) = (ys.filter fun x => !x.2.isEmpty).flatMap (·.2) := by
    intro ys
    induction ys with
    | nil => rfl
    | cons y ys ih => cases hy : y.2 <;> simp [hy, ih]
  have hmap : (byName xs).map (fun x => (x.1, x.2.filter fun f => keep f.1)) =
      byName (xs.map fun x => (x.1, x.2.filter fun f => keep f.1)) :=
    List.map_mergeSort fun _ _ _ _ => rfl
  have hsort := @filter_mergeSort _ (fun a b : String × List (Place × Bytes) => a.1 ≤ b.1)
    (fun a b c => by simpa using String.le_trans) (fun a b => by simpa using String.le_total a.1 b.1)
    (fun x => !x.2.isEmpty) (xs.map fun x => (x.1, x.2.filter fun f => keep f.1))
  calc ((byName xs).flatMap (·.2)).filter (fun f => keep f.1)
      = ((byName xs).map fun x => (x.1, x.2.filter fun f => keep f.1)).flatMap (·.2) := by
        rw [List.filter_flatMap, List.flatMap_map]
    _ = (byName (shown keep xs)).flatMap (·.2) := by
        rw [hmap, hempty]
        exact congrArg (List.flatMap (·.2)) hsort

/-- A walk shows the same in two directories whose names contribute the same to what shows. -/
theorem filesBelow_congr {enter : String → Bool} {keep : Place → Bool}
    {entries entries' : List (String × Entry)}
    (h : shown keep (entries'.map fun x => (x.1, filesAt enter x.1 x.2)) =
      shown keep (entries.map fun x => (x.1, filesAt enter x.1 x.2))) :
    (filesBelow enter (dir entries')).filter (fun f => keep f.1) =
      (filesBelow enter (dir entries)).filter (fun f => keep f.1) := by
  rw [filesBelow_dir, filesBelow_dir, filter_flatMap_byName, filter_flatMap_byName, h]

section Contributions

variable {enter : String → Bool} {keep : Place → Bool} {n : String} {e new : Entry}
  {entries : List (String × Entry)}

/-- Nothing of an entry shows under a name. -/
def Unseen (enter : String → Bool) (keep : Place → Bool) (n : String) (e : Entry) : Prop :=
  (filesAt enter n e).filter (fun f => keep f.1) = []

theorem unseen_file {content : Bytes} (h : keep [n] = false) : Unseen enter keep n (file content) := by
  simp [Unseen, filesAt, h]

theorem unseen_empty : Unseen enter keep n (dir []) := by
  have hnone : filesBelow enter (dir []) = [] := by simp [filesBelow_dir, byName]
  cases he : enter n <;> simp [Unseen, filesAt, he, hnone]

/-- A directory that is not entered does not show. -/
theorem unseen_of_not_enter (he : enter n = false) (hk : keep [n] = false) :
    Unseen enter keep n e := by
  cases e with
  | file content => exact unseen_file hk
  | dir entries => simp [Unseen, filesAt, he]

/-- A new entry of a name contributes what the old one did. -/
theorem shown_putName
    (hsome : ∀ e, entries.lookup n = some e → (filesAt enter n new).filter (fun f => keep f.1) =
      (filesAt enter n e).filter fun f => keep f.1)
    (hnone : entries.lookup n = none → Unseen enter keep n new) :
    shown keep ((putName n new entries).map fun x => (x.1, filesAt enter x.1 x.2)) =
      shown keep (entries.map fun x => (x.1, filesAt enter x.1 x.2)) := by
  induction entries with
  | nil =>
    have h : (filesAt enter n new).filter (fun f => keep f.1) = [] := hnone rfl
    simp [putName, shown, h]
  | cons x rest ih =>
    obtain ⟨m, e⟩ := x
    simp only [putName]
    by_cases hm : m = n
    · subst hm
      have h := hsome e (by simp)
      simp [shown, h]
    · have hlookup : List.lookup n ((m, e) :: rest) = rest.lookup n := by
        simp [List.lookup_cons, beq_eq_false_iff_ne.mpr (Ne.symm hm)]
      rw [hlookup] at hsome hnone
      have hrest := ih hsome hnone
      unfold shown at hrest ⊢
      simp only [beq_eq_false_iff_ne.mpr hm, Bool.false_eq_true, if_false, List.map_cons,
        List.filter_cons, hrest]

/-- A name whose entries do not show can be removed. -/
theorem shown_filter_ne (h : ∀ e, Unseen enter keep n e) :
    shown keep ((entries.filter fun x => x.1 != n).map fun x => (x.1, filesAt enter x.1 x.2)) =
      shown keep (entries.map fun x => (x.1, filesAt enter x.1 x.2)) := by
  induction entries with
  | nil => rfl
  | cons x rest ih =>
    obtain ⟨m, e⟩ := x
    by_cases hm : m = n
    · subst hm
      have he : (filesAt enter m e).filter (fun f => keep f.1) = [] := h e
      simpa [shown, he] using ih
    · have hb : (m != n) = true := by simpa using hm
      unfold shown at ih ⊢
      simp only [List.filter_cons, hb, if_true, List.map_cons, ih]

/-- What shows of a directory one level up. -/
theorem filesAt_congr {entries' : List (String × Entry)}
    (h : (filesBelow enter (dir entries')).filter (fun f => keep (n :: f.1)) =
      (filesBelow enter (dir entries)).filter fun f => keep (n :: f.1)) :
    (filesAt enter n (dir entries')).filter (fun f => keep f.1) =
      (filesAt enter n (dir entries)).filter fun f => keep f.1 := by
  simp only [filesAt]
  cases enter n with
  | false => rfl
  | true => simpa [List.filter_map, Function.comp_def] using congrArg _ h

end Contributions

/-! ## Walks after a change -/

/-- Every directory of a tree is one of another tree, and the walks from it show the same. -/
def SameWalk (enter : String → Bool) (keep : Place → Bool) (t t' : Entry) : Prop :=
  ∀ q entries, t.at? q = some (dir entries) → ∃ entries', t'.at? q = some (dir entries') ∧
    (filesBelow enter (dir entries')).filter (fun f => keep (q ++ f.1)) =
      (filesBelow enter (dir entries)).filter (fun f => keep (q ++ f.1))

theorem SameWalk.refl (enter : String → Bool) (keep : Place → Bool) (t : Entry) :
    SameWalk enter keep t t := fun _ entries h => ⟨entries, h, rfl⟩

theorem SameWalk.trans {enter : String → Bool} {keep : Place → Bool} {a b c : Entry}
    (hab : SameWalk enter keep a b) (hbc : SameWalk enter keep b c) : SameWalk enter keep a c := by
  intro q entries h
  obtain ⟨entries', h', hwalk⟩ := hab q entries h
  obtain ⟨entries'', h'', hwalk'⟩ := hbc q entries' h'
  exact ⟨entries'', h'', hwalk'.trans hwalk⟩

theorem at?_dir_cons (entries : List (String × Entry)) (m : String) (q : Place) :
    (dir entries).at? (m :: q) = (entries.lookup m).bind fun e => e.at? q := rfl

theorem exists_dir_of_at? {t : Entry} {place : Place} {entries : List (String × Entry)}
    (h : t.at? place = some (dir entries)) : ∃ es, t = dir es := by
  cases t with
  | dir es => exact ⟨es, rfl⟩
  | file _ => cases place <;> cases h

theorem at?_ne_dir {e : Entry} (h : e.isDir = false) (q : Place) (entries : List (String × Entry)) :
    e.at? q ≠ some (dir entries) := by
  intro hq
  obtain ⟨es, rfl⟩ := exists_dir_of_at? hq
  cases h

/-- A changed entry of a name keeps the walks of the directory if its own are kept. -/
theorem sameWalk_putName {enter : String → Bool} {keep : Place → Bool} {m : String}
    {es : List (String × Entry)} {t t' : Entry} (hl : es.lookup m = some t)
    (ht : ∃ ts, t = dir ts) (h : SameWalk enter (fun p => keep (m :: p)) t t') :
    SameWalk enter keep (dir es) (dir (putName m t' es)) := by
  intro q xs hq
  cases q with
  | nil =>
    simp only [at?, Option.some.injEq, dir.injEq] at hq
    subst hq
    obtain ⟨ts, rfl⟩ := ht
    obtain ⟨ts', hts', hwalk⟩ := h [] ts rfl
    simp only [at?, Option.some.injEq] at hts'
    subst hts'
    refine ⟨_, rfl, filesBelow_congr (shown_putName (fun e he => ?_) fun hnone => ?_)⟩
    · rw [hl, Option.some.injEq] at he
      subst he
      exact filesAt_congr hwalk
    · rw [hl] at hnone
      cases hnone
  | cons x q =>
    rw [at?_dir_cons] at hq ⊢
    rw [lookup_putName]
    by_cases hx : x = m
    · subst hx
      rw [hl, Option.bind_some] at hq
      simpa using h q xs hq
    · rw [if_neg hx]
      exact ⟨xs, hq, rfl⟩

/-- Putting an entry that does not show where nothing showed keeps all walks. -/
theorem sameWalk_put {enter : String → Bool} (n : String) (new : Entry) :
    ∀ (place : Place) (t : Entry) (keep : Place → Bool),
    (∃ entries, t.at? place = some (dir entries)) →
    (∀ e, t.at? (place ++ [n]) = some e → e.isDir = false ∧
      Unseen enter (fun p => keep (place ++ p)) n e) →
    Unseen enter (fun p => keep (place ++ p)) n new →
    SameWalk enter keep t (t.put (place ++ [n]) new)
  | [], t, keep, ⟨entries, h⟩, hold, hnew => by
    simp only [at?, Option.some.injEq] at h
    subst h
    simp only [List.nil_append, at?, put] at hold hnew ⊢
    intro q es hq
    cases q with
    | nil =>
      simp only [at?, Option.some.injEq, dir.injEq] at hq
      subst hq
      refine ⟨_, rfl, filesBelow_congr (shown_putName (fun e he => ?_) fun _ => hnew)⟩
      exact hnew.trans (hold e (by simp [he])).2.symm
    | cons m q =>
      rw [at?_dir_cons] at hq ⊢
      rw [lookup_putName]
      by_cases hm : m = n
      · subst hm
        cases hl : entries.lookup m with
        | none => simp [hl] at hq
        | some e =>
          rw [hl, Option.bind_some] at hq
          exact absurd hq (at?_ne_dir (hold e (by simp [hl])).1 q es)
      · rw [if_neg hm]
        exact ⟨es, hq, rfl⟩
  | m :: place, .file _, _, ⟨entries, h⟩, _, _ => by simp [at?] at h
  | m :: place, .dir es, keep, ⟨entries, h⟩, hold, hnew => by
    simp only [at?] at h
    cases hl : es.lookup m with
    | none => simp [hl] at h
    | some t =>
      rw [hl, Option.bind_some] at h
      simp only [List.cons_append, at?_dir_cons, hl, Option.bind_some] at hold
      have ih := sameWalk_put n new place t (fun p => keep (m :: p)) ⟨entries, h⟩ hold hnew
      simp only [List.cons_append, put, hl, Option.getD_some]
      exact sameWalk_putName hl (exists_dir_of_at? h) ih

/-- Removing a file of a name that does not show keeps all walks. -/
theorem sameWalk_remove {enter : String → Bool} (n : String) :
    ∀ (place : Place) (t : Entry) (keep : Place → Bool),
    (∃ entries, t.at? place = some (dir entries)) →
    (∀ e, t.at? (place ++ [n]) = some e → e.isDir = false) →
    (∀ e, Unseen enter (fun p => keep (place ++ p)) n e) →
    SameWalk enter keep t (t.remove (place ++ [n]))
  | [], t, keep, ⟨entries, h⟩, hfile, hunseen => by
    simp only [at?, Option.some.injEq] at h
    subst h
    simp only [List.nil_append, at?, remove] at hfile hunseen ⊢
    intro q es hq
    cases q with
    | nil =>
      simp only [at?, Option.some.injEq, dir.injEq] at hq
      subst hq
      exact ⟨_, rfl, filesBelow_congr (shown_filter_ne hunseen)⟩
    | cons m q =>
      rw [at?_dir_cons] at hq ⊢
      rw [lookup_filter_ne]
      by_cases hm : m = n
      · subst hm
        cases hl : entries.lookup m with
        | none => simp [hl] at hq
        | some e =>
          rw [hl, Option.bind_some] at hq
          exact absurd hq (at?_ne_dir (hfile e (by simp [hl])) q es)
      · rw [if_neg hm]
        exact ⟨es, hq, rfl⟩
  | m :: place, .file _, _, ⟨entries, h⟩, _, _ => by simp [at?] at h
  | m :: place, .dir es, keep, ⟨entries, h⟩, hfile, hunseen => by
    simp only [at?] at h
    cases hl : es.lookup m with
    | none => simp [hl] at h
    | some t =>
      rw [hl, Option.bind_some] at h
      simp only [List.cons_append, at?_dir_cons, hl, Option.bind_some] at hfile
      have ih := sameWalk_remove n place t (fun p => keep (m :: p)) ⟨entries, h⟩ hfile hunseen
      rw [List.cons_append, remove_dir_cons hl]
      exact sameWalk_putName hl (exists_dir_of_at? h) ih

end Entry

end FacadeStubs
