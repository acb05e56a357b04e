import FacadeStubs.Proofs.FileTree.Walk
import FacadeStubs.Proofs.Text.ByteOrder

/-!
# What a walk lists

A walk of a directory goes through it by name and puts the contents of a directory in the place of the
directory. In a tree in which no directory has two entries of one name (`Entry.Proper`), what it lists is
given by two rules that do not mention how it goes:

* `mem_filesBelow_iff`: it lists the files that the tree has at a place all of whose directories may be
  entered, and nothing else;
* `filesBelow_before`: it lists them in the order of their places, which are compared name by name and
  not as one text: what is in `a` comes before `a.php`, although a dot comes before a slash.

A place is found through the first entry of each name, and a walk goes through all entries. This is where
the tree has to be proper.
-/
namespace FacadeStubs

/-- The order of places: name by name, and names byte by byte. -/
def Place.Before (p q : Place) : Prop :=
  List.Lex (fun a b => Utf8.bytesOf a < Utf8.bytesOf b) p q

theorem Place.Before.ne : ∀ {p q : Place}, p.Before q → p ≠ q
  | _, _, .nil, h => by cases h
  | _, _, .cons hlex, h => by
    cases h
    exact Place.Before.ne hlex rfl
  | _, _, .rel hlt, h => by
    cases h
    exact List.lt_irrefl _ hlt

namespace Entry

/-! ## Proper trees -/

/-- A tree none of whose directories has two entries of one name. -/
def Proper (t : Entry) : Prop :=
  ∀ p entries, t.at? p = some (dir entries) → (entries.map Prod.fst).Nodup

theorem at?_append (t : Entry) (q : Place) : ∀ p : Place,
    t.at? (p ++ q) = (t.at? p).bind fun e => e.at? q
  | [] => rfl
  | n :: p => by
    cases t with
    | file _ => rfl
    | dir es =>
      rw [List.cons_append, at?_dir_cons, at?_dir_cons]
      cases es.lookup n with
      | none => rfl
      | some e => exact at?_append e q p

/-- What stands in a proper tree is proper. -/
theorem Proper.at? {t e : Entry} {p : Place} (h : t.Proper) (he : t.at? p = some e) : e.Proper := by
  intro q entries hq
  refine h (p ++ q) entries ?_
  rw [at?_append, he, Option.bind_some, hq]

theorem mem_of_lookup {es : List (String × Entry)} {n : String} {e : Entry}
    (h : es.lookup n = some e) : (n, e) ∈ es := by
  obtain ⟨before, after, rfl, -⟩ := List.lookup_eq_some_iff.mp h
  simp

theorem lookup_of_mem {n : String} {e : Entry} : ∀ {es : List (String × Entry)},
    (es.map Prod.fst).Nodup → (n, e) ∈ es → es.lookup n = some e
  | (m, x) :: es, hnodup, hmem => by
    rw [List.map_cons, List.nodup_cons] at hnodup
    rcases List.mem_cons.mp hmem with heq | htail
    · cases heq
      simp
    · have hne : n ≠ m := by
        rintro rfl
        exact hnodup.1 (List.mem_map.mpr ⟨_, htail, rfl⟩)
      rw [List.lookup_cons, beq_eq_false_iff_ne.mpr hne]
      exact lookup_of_mem hnodup.2 htail

theorem proper_file (content : Bytes) : (file content).Proper := by
  intro p entries h
  cases p <;> cases h

theorem proper_dir_iff {es : List (String × Entry)} :
    (dir es).Proper ↔ (es.map Prod.fst).Nodup ∧ ∀ x ∈ es, x.2.Proper := by
  constructor
  · intro h
    have hnodup := h [] es rfl
    refine ⟨hnodup, fun x hx => h.at? (p := [x.1]) ?_⟩
    rw [at?_dir_cons, lookup_of_mem hnodup hx]
    rfl
  · rintro ⟨hnodup, hall⟩ p entries hp
    cases p with
    | nil =>
      cases hp
      exact hnodup
    | cons n p =>
      rw [at?_dir_cons] at hp
      obtain ⟨e, he, hp⟩ := Option.bind_eq_some_iff.mp hp
      exact hall _ (mem_of_lookup he) p entries hp

/-! ## The listed files -/

theorem mem_filesBelow_dir {enter : String → Bool} {es : List (String × Entry)} {f : Place × Bytes} :
    f ∈ filesBelow enter (dir es) ↔ ∃ x ∈ es, f ∈ filesAt enter x.1 x.2 := by
  simp [filesBelow_dir, byName, List.mem_flatMap, List.mem_mergeSort]

/-- What an entry contributes has the name of the entry in front. -/
theorem exists_of_mem_filesAt {enter : String → Bool} {n : String} {e : Entry} {f : Place × Bytes}
    (h : f ∈ filesAt enter n e) : ∃ rest, f.1 = n :: rest := by
  cases e with
  | file content =>
    obtain rfl := List.mem_singleton.mp h
    exact ⟨[], rfl⟩
  | dir es =>
    obtain ⟨g, -, rfl⟩ := List.mem_map.mp h
    exact ⟨g.1, rfl⟩

theorem mem_filesAt_dir_iff {enter : String → Bool} {n : String} {es : List (String × Entry)}
    {p : Place} {content : Bytes} : (n :: p, content) ∈ filesAt enter n (dir es) ↔
      enter n = true ∧ (p, content) ∈ filesBelow enter (dir es) := by
  cases hn : enter n <;> simp [filesAt, hn]

/-- Of all entries of a directory, the one of a name contributes what is below the name. -/
theorem mem_filesBelow_cons_iff {enter : String → Bool} {es : List (String × Entry)} {n : String}
    {p : Place} {content : Bytes} (hnodup : (es.map Prod.fst).Nodup) :
    (n :: p, content) ∈ filesBelow enter (dir es) ↔
      ∃ e, es.lookup n = some e ∧ (n :: p, content) ∈ filesAt enter n e := by
  rw [mem_filesBelow_dir]
  constructor
  · rintro ⟨⟨m, e⟩, hx, hf⟩
    obtain ⟨rest, hrest⟩ := exists_of_mem_filesAt hf
    cases hrest
    exact ⟨e, lookup_of_mem hnodup hx, hf⟩
  · rintro ⟨e, hl, hf⟩
    exact ⟨(n, e), mem_of_lookup hl, hf⟩

/-- A walk of a proper directory lists exactly the files at places all of whose directories may be
entered. -/
theorem mem_filesBelow_iff (enter : String → Bool) (content : Bytes) :
    ∀ (p : Place) {es : List (String × Entry)}, (dir es).Proper →
    ((p, content) ∈ filesBelow enter (dir es) ↔
      (dir es).at? p = some (file content) ∧ ∀ n ∈ p.dropLast, enter n = true)
  | [], es, _ => by
    refine iff_of_false (fun h => ?_) (by simp [at?])
    exact (filesBelow_entered enter _ _ h).1 rfl
  | n :: p, es, hproper => by
    obtain ⟨hnodup, hall⟩ := proper_dir_iff.mp hproper
    rw [mem_filesBelow_cons_iff hnodup, at?_dir_cons]
    cases hl : es.lookup n with
    | none => simp
    | some e =>
      simp only [Option.some.injEq, exists_eq_left', Option.bind_some]
      cases e with
      | file bytes =>
        -- A file stands at its own name only.
        cases p with
        | nil => simpa [filesAt, at?] using eq_comm
        | cons m p => simp [filesAt, at?]
      | dir below =>
        have ih := mem_filesBelow_iff enter content p (hall _ (mem_of_lookup hl))
        rw [mem_filesAt_dir_iff, ih]
        cases p with
        | nil => simp [at?]
        | cons m p => simp [and_left_comm]

/-! ## Their order -/

/-- Contributions of different names, each in order and with its name in front, are in order when they
are sorted by name. -/
theorem pairwise_flatMap_byName {xs : List (String × List (Place × Bytes))}
    (hnodup : (xs.map Prod.fst).Nodup)
    (hsorted : ∀ x ∈ xs, x.2.Pairwise fun f g => f.1.Before g.1)
    (hnames : ∀ x ∈ xs, ∀ f ∈ x.2, ∃ rest, f.1 = x.1 :: rest) :
    ((byName xs).flatMap (·.2)).Pairwise fun f g => f.1.Before g.1 := by
  have hmem : ∀ x ∈ byName xs, x ∈ xs := fun x hx => List.mem_mergeSort.mp hx
  have hle : (byName xs).Pairwise fun x y => x.1 ≤ y.1 := by
    have hsort := @List.pairwise_mergeSort _ (fun a b : String × List (Place × Bytes) => a.1 ≤ b.1)
      (fun a b c => by simpa using String.le_trans) (fun a b => by simpa using String.le_total a.1 b.1)
      xs
    simpa [byName] using hsort
  have hne : (byName xs).Pairwise fun x y => x.1 ≠ y.1 := by
    have hperm : ((byName xs).map Prod.fst).Perm (xs.map Prod.fst) := (List.mergeSort_perm xs _).map _
    exact List.pairwise_map.mp (hperm.nodup_iff.mpr hnodup)
  refine List.pairwise_flatMap.mpr ⟨fun x hx => hsorted x (hmem x hx), ?_⟩
  refine (hle.and hne).imp_of_mem fun {x y} hx hy hxy f hf g hg => ?_
  obtain ⟨rest, hfront⟩ := hnames x (hmem x hx) f hf
  obtain ⟨rest', hfront'⟩ := hnames y (hmem y hy) g hg
  rw [hfront, hfront']
  exact .rel (Utf8.bytesOf_lt_iff.mpr (lt_of_le_of_ne hxy.1 hxy.2))

mutual

/-- A walk of a proper tree lists the files in the order of their places, none of them twice. -/
theorem filesBelow_before (enter : String → Bool) : ∀ e : Entry, e.Proper →
    (filesBelow enter e).Pairwise fun f g => f.1.Before g.1
  | file _, _ => by simp [filesBelow]
  | dir es, h => by
    obtain ⟨hnodup, hall⟩ := proper_dir_iff.mp h
    rw [filesBelow]
    refine pairwise_flatMap_byName ?_ (filesOf_before enter es hall) fun x hx f hf => ?_
    · simpa [filesOf_eq, Function.comp_def] using hnodup
    · rw [filesOf_eq] at hx
      obtain ⟨y, -, rfl⟩ := List.mem_map.mp hx
      exact exists_of_mem_filesAt hf

theorem filesOf_before (enter : String → Bool) : ∀ es : List (String × Entry),
    (∀ x ∈ es, x.2.Proper) → ∀ x ∈ filesOf enter es, x.2.Pairwise fun f g => f.1.Before g.1
  | [], _, x, hx => by simp [filesOf] at hx
  | (n, file content) :: rest, h, x, hx => by
    rw [filesOf, List.mem_cons] at hx
    rcases hx with rfl | hx
    · exact List.pairwise_singleton _ _
    · exact filesOf_before enter rest (fun y hy => h y (List.mem_cons_of_mem _ hy)) x hx
  | (n, dir es) :: rest, h, x, hx => by
    rw [filesOf, List.mem_cons] at hx
    rcases hx with rfl | hx
    · have hbelow := filesBelow_before enter (dir es) (h _ List.mem_cons_self)
      cases enter n with
      | false => exact List.Pairwise.nil
      | true => exact List.pairwise_map.mpr (hbelow.imp fun hlex => .cons hlex)
    · exact filesOf_before enter rest (fun y hy => h y (List.mem_cons_of_mem _ hy)) x hx

end

end Entry

end FacadeStubs
