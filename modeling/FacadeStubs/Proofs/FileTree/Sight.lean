import FacadeStubs.FileTree.Disk

/-!
# What a tree holds at each place

Two trees are compared by what they hold at every place: nothing, a directory, or a file with its
bytes (`Entry.sightAt?`). A directory counts as such whatever stands in it, so that a change far
below is no change at the directories above it.

* `sightAt?_put`, `sightAt?_remove`: putting and removing act on the places at and below their own
  and on no others, if the directory that holds the place is there;
* `Entry.Grown`: a tree in which everything is as it was, but for directories that are new.
-/
namespace FacadeStubs

/-- What stands at a place: a directory, or a file with its bytes. -/
inductive Sight where
  | directory
  | content (bytes : Bytes)
  deriving DecidableEq, Repr

namespace Entry

/-- An entry as it is seen without looking into directories. -/
def sight : Entry → Sight
  | file content => .content content
  | dir _ => .directory

/-- What a tree holds at a place. -/
def sightAt? (e : Entry) (p : Place) : Option Sight := (e.at? p).map sight

/-- A tree that has grown by directories only: all that was there stays as it was, and what is new
is a directory. -/
structure Grown (old new : Entry) : Prop where
  kept : ∀ p s, old.sightAt? p = some s → new.sightAt? p = some s
  added : ∀ p s, new.sightAt? p = some s → old.sightAt? p = none → s = .directory

theorem Grown.refl (e : Entry) : Grown e e :=
  ⟨fun _ _ h => h, fun _ _ h h' => by rw [h] at h'; cases h'⟩

theorem Grown.trans {a b c : Entry} (hab : Grown a b) (hbc : Grown b c) : Grown a c := by
  refine ⟨fun p s h => hbc.kept p s (hab.kept p s h), fun p s h ha => ?_⟩
  cases hb : b.sightAt? p with
  | none => exact hbc.added p s h hb
  | some s' =>
    have hs := hab.added p s' hb ha
    rw [hbc.kept p s' hb, Option.some.injEq] at h
    rw [← h, hs]

/-- Trees with the same sights have grown by nothing. -/
theorem Grown.of_sightAt?_eq {a b : Entry} (h : ∀ p, b.sightAt? p = a.sightAt? p) : Grown a b := by
  refine ⟨fun p s hp => by rw [h p, hp], fun p s hp ha => ?_⟩
  rw [h p, ha] at hp; cases hp

theorem sightAt?_eq_content {e : Entry} {p : Place} {bytes : Bytes} :
    e.sightAt? p = some (.content bytes) ↔ e.at? p = some (.file bytes) := by
  unfold sightAt?
  cases h : e.at? p with
  | none => simp
  | some x => cases x <;> simp [sight]

theorem sightAt?_eq_directory {e : Entry} {p : Place} :
    e.sightAt? p = some .directory ↔ ∃ entries, e.at? p = some (.dir entries) := by
  unfold sightAt?
  cases h : e.at? p with
  | none => simp
  | some x => cases x <;> simp [sight]

/-- What is a directory in one tree is one in another. -/
def KeepsDirectories (t t' : Entry) : Prop :=
  ∀ p, t.sightAt? p = some .directory → t'.sightAt? p = some .directory

theorem KeepsDirectories.at? {t t' : Entry} (h : KeepsDirectories t t') {p : Place}
    (hp : ∃ entries, t.at? p = some (dir entries)) : ∃ entries, t'.at? p = some (dir entries) :=
  sightAt?_eq_directory.mp (h p (sightAt?_eq_directory.mpr hp))

theorem lookup_putName (name : String) (new : Entry) (m : String) :
    ∀ entries, (putName name new entries).lookup m = if m = name then some new else entries.lookup m
  | [] => by
    by_cases h : m = name <;> simp [putName, List.lookup_cons, h, beq_eq_false_iff_ne.mpr]
  | (n, e) :: rest => by
    simp only [putName]
    by_cases hn : n = name
    · subst hn
      by_cases h : m = n
      · simp [h]
      · simp [List.lookup_cons, h, beq_eq_false_iff_ne.mpr h]
    · simp only [beq_eq_false_iff_ne.mpr hn, Bool.false_eq_true, if_false, List.lookup_cons]
      by_cases h : m = n
      · subst h; simp [hn]
      · simp [beq_eq_false_iff_ne.mpr h, lookup_putName name new m rest]

theorem lookup_filter_ne (name m : String) : ∀ entries : List (String × Entry),
    (entries.filter fun x => x.1 != name).lookup m = if m = name then none else entries.lookup m
  | [] => by simp
  | (n, e) :: rest => by
    have ih := lookup_filter_ne name m rest
    by_cases hn : n = name
    · subst hn
      by_cases h : m = n
      · simpa [h] using ih
      · simpa [List.lookup_cons, h, beq_eq_false_iff_ne.mpr h] using ih
    · have hb : (n != name) = true := by simpa using hn
      simp only [List.filter_cons, hb, if_true, List.lookup_cons, ih]
      by_cases h : m = n
      · subst h; simp [hn]
      · simp [beq_eq_false_iff_ne.mpr h]

theorem sightAt?_dir_cons (entries : List (String × Entry)) (m : String) (q : Place) :
    (dir entries).sightAt? (m :: q) = (entries.lookup m).bind fun e => e.sightAt? q := by
  simp only [sightAt?, at?]
  cases entries.lookup m <;> rfl

theorem sightAt?_dir_nil (entries : List (String × Entry)) :
    (dir entries).sightAt? [] = some .directory := rfl

/-! ## Putting and removing -/

/-- Putting an entry into a directory that is there changes what is at and below its place. -/
theorem sightAt?_put (n : String) (e : Entry) : ∀ (place : Place) (t : Entry) (q : Place),
    (∃ entries, t.at? place = some (.dir entries)) →
    (t.put (place ++ [n]) e).sightAt? q =
      if (place ++ [n]) <+: q then e.sightAt? (q.drop (place.length + 1)) else t.sightAt? q
  | [], t, q, ⟨entries, h⟩ => by
    simp only [at?, Option.some.injEq] at h
    subst h
    simp only [List.nil_append, put]
    cases q with
    | nil => simp [sightAt?_dir_nil]
    | cons m q =>
      rw [sightAt?_dir_cons, sightAt?_dir_cons, lookup_putName]
      by_cases hm : m = n
      · subst hm; simp
      · simp [hm, Ne.symm hm]
  | m :: place, .file _, q, ⟨entries, h⟩ => by simp [at?] at h
  | m :: place, .dir es, q, ⟨entries, h⟩ => by
    simp only [at?] at h
    cases hl : es.lookup m with
    | none => simp [hl] at h
    | some t =>
      rw [hl, Option.bind_some] at h
      simp only [List.cons_append, put, hl, Option.getD_some]
      cases q with
      | nil => simp [sightAt?_dir_nil]
      | cons x q =>
        rw [sightAt?_dir_cons, sightAt?_dir_cons, lookup_putName]
        by_cases hx : x = m
        · subst hx
          simp only [if_true, Option.bind_some, hl, List.cons_prefix_cons, true_and]
          rw [sightAt?_put n e place t q ⟨entries, h⟩]
          simp
        · simp [hx, Ne.symm hx]

theorem remove_dir_cons {es : List (String × Entry)} {m n : String} {t : Entry} {place : Place}
    (hl : es.lookup m = some t) :
    (dir es).remove (m :: (place ++ [n])) = dir (putName m (t.remove (place ++ [n])) es) := by
  cases place <;> simp [remove, hl]

/-- Removing an entry from a directory leaves nothing at and below its place. -/
theorem sightAt?_remove (n : String) : ∀ (place : Place) (t : Entry) (q : Place),
    (∃ entries, t.at? place = some (.dir entries)) →
    (t.remove (place ++ [n])).sightAt? q = if (place ++ [n]) <+: q then none else t.sightAt? q
  | [], t, q, ⟨entries, h⟩ => by
    simp only [at?, Option.some.injEq] at h
    subst h
    simp only [List.nil_append, remove]
    cases q with
    | nil => simp [sightAt?_dir_nil]
    | cons m q =>
      rw [sightAt?_dir_cons, sightAt?_dir_cons, lookup_filter_ne]
      by_cases hm : m = n
      · subst hm; simp
      · simp [hm, Ne.symm hm]
  | m :: place, .file _, q, ⟨entries, h⟩ => by simp [at?] at h
  | m :: place, .dir es, q, ⟨entries, h⟩ => by
    simp only [at?] at h
    cases hl : es.lookup m with
    | none => simp [hl] at h
    | some t =>
      rw [hl, Option.bind_some] at h
      rw [List.cons_append, remove_dir_cons hl]
      cases q with
      | nil => simp [sightAt?_dir_nil]
      | cons x q =>
        rw [sightAt?_dir_cons, sightAt?_dir_cons, lookup_putName]
        by_cases hx : x = m
        · subst hx
          simp only [if_true, Option.bind_some, hl, List.cons_prefix_cons, true_and]
          exact sightAt?_remove n place t q ⟨entries, h⟩
        · simp [hx, Ne.symm hx]

/-- Below a place that holds nothing there is nothing. -/
theorem sightAt?_eq_none_below : ∀ {p q : Place} {t : Entry}, p <+: q → t.sightAt? p = none →
    t.sightAt? q = none
  | [], _, t, _, h => by simp [sightAt?, at?] at h
  | _ :: _, [], _, hp, _ => by simp at hp
  | m :: p, x :: q, t, hp, h => by
    obtain ⟨rfl, hpq⟩ := List.cons_prefix_cons.mp hp
    cases t with
    | file c => rfl
    | dir es =>
      rw [sightAt?_dir_cons] at h ⊢
      cases hl : es.lookup m with
      | none => rfl
      | some t =>
        rw [hl, Option.bind_some] at h
        exact sightAt?_eq_none_below hpq h

/-- Below a place that holds no directory there is nothing. -/
theorem sightAt?_eq_none_of_lt : ∀ {p q : Place} {t : Entry}, p <+: q → q ≠ p →
    t.sightAt? p ≠ some .directory → t.sightAt? q = none
  | [], [], _, _, hne, _ => absurd rfl hne
  | [], _ :: _, file _, _, _, _ => rfl
  | [], _ :: _, dir _, _, _, h => absurd rfl h
  | _ :: _, [], _, hp, _, _ => by simp at hp
  | _ :: _, _ :: _, file _, _, _, _ => rfl
  | m :: p, x :: q, dir es, hp, hne, h => by
    obtain ⟨rfl, hpq⟩ := List.cons_prefix_cons.mp hp
    rw [sightAt?_dir_cons] at h ⊢
    cases hl : es.lookup m with
    | none => rfl
    | some t =>
      rw [hl, Option.bind_some] at h
      exact sightAt?_eq_none_of_lt hpq (fun heq => hne (by rw [heq])) h

end Entry

end FacadeStubs
