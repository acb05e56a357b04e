import FacadeStubs.Proofs.Supertypes
import Mathlib.Data.List.Forall2
import Mathlib.Data.List.Nodup

/-!
# The method table of a class

`methodsOf` lists what can be called on a class. Its table is given by two relations that do not
mention the walks: a class *declares* a method itself, and it *gets* a method from a trait that can
be reached from it (`Gets`). `methodsOf_table` says that the table has every name once, that it
consists of what the classes of the chain contribute, in the order of the chain, and that a name is
answered by the first class of the chain that declares it or gets it, its own declaration first.
The two walks behind it, up the parents and through the traits, end by themselves on every index,
whatever goes round in circles there.

The table is `firstOfEachName` of all contributions in order, so everything rests on what that
function keeps: a sublist, one method of each name, and the first answer to every look-up.
-/
namespace FacadeStubs.ClassIndex

/-- A declaration gets a method from a trait that it uses, directly or through other traits. -/
def Gets (index : ClassIndex) (d : ClassDecl) (m : Method) : Prop :=
  ∃ t e, Reachable index.traitsOf d.traits t ∧ index.get? t = some e ∧ m ∈ e.methods

/-- A declaration provides a method: by its own declaration, or from a trait. -/
def Provides (index : ClassIndex) (d : ClassDecl) (m : Method) : Prop :=
  m ∈ d.methods ∨ index.Gets d m

/-- Whether a method has a name, in any letter case. -/
def Named (n : String) (m : Method) : Prop := lowerCase m.name = lowerCase n

/-- The methods that a declaration takes from its traits, in the order in which they are found. -/
def traitMethods (index : ClassIndex) (d : ClassDecl) : List Method :=
  (index.usedTraits d).flatMap fun t => ((index.get? t).map (·.methods)).getD []

theorem contributed_eq (index : ClassIndex) (d : ClassDecl) :
    index.contributed d = d.methods ++ index.traitMethods d := rfl

/-! ## What traits contribute -/

theorem traitsOf_congr (index : ClassIndex) {a b : String} (h : classKey a = classKey b) :
    index.traitsOf a = index.traitsOf b := by
  unfold traitsOf; rw [get?_congr index h]

theorem usedTraits_walk (index : ClassIndex) (d : ClassDecl) :
    Walk index.traitsOf [] d.traits (index.usedTraits d) := by
  refine depthFirst_walk (fun seen => unseenEdges (·.traits) seen index.decls)
    (fun _ _ hs => unseenEdges_visit index (·.traits) hs) _ [] d.traits ?_
  exact Nat.le_of_eq (by rw [unseenEdges_nil])

/-- The traits of a declaration are the whole search: a larger bound on the steps changes nothing. -/
theorem usedTraits_eq (index : ClassIndex) (d : ClassDecl) {bound : Nat}
    (hb : d.traits.length + index.edges (·.traits) ≤ bound) :
    depthFirst index.traitsOf bound [] d.traits = index.usedTraits d :=
  depthFirst_ends (fun seen => unseenEdges (·.traits) seen index.decls)
    (fun _ _ hs => unseenEdges_visit index (·.traits) hs) _ bound [] d.traits
    (Nat.le_of_eq (by rw [unseenEdges_nil])) hb

theorem mem_methodsAt {index : ClassIndex} {t : String} {m : Method} :
    m ∈ ((index.get? t).map (·.methods)).getD [] ↔ ∃ e, index.get? t = some e ∧ m ∈ e.methods := by
  cases index.get? t <;> simp

theorem gets_of_mem_traitMethods {index : ClassIndex} {d : ClassDecl} {m : Method}
    (h : m ∈ index.traitMethods d) : index.Gets d m := by
  obtain ⟨t, ht, hm⟩ := List.mem_flatMap.mp h
  obtain ⟨e, he, hm⟩ := mem_methodsAt.mp hm
  exact ⟨t, e, (usedTraits_walk index d).reachable t ht, he, hm⟩

/-- The walk over the traits misses no method, however often traits use each other. -/
theorem mem_traitMethods_iff {index : ClassIndex} {d : ClassDecl} {m : Method} :
    m ∈ index.traitMethods d ↔ index.Gets d m := by
  refine ⟨gets_of_mem_traitMethods, fun ⟨t, e, ht, he, hm⟩ => ?_⟩
  obtain ⟨u, hu, hk⟩ := (usedTraits_walk index d).complete (fun _ _ => traitsOf_congr index) ht
  refine List.mem_flatMap.mpr ⟨u, hu, mem_methodsAt.mpr ⟨e, ?_, hm⟩⟩
  rw [get?_congr index hk, he]

theorem mem_contributed_iff {index : ClassIndex} {d : ClassDecl} {m : Method} :
    m ∈ index.contributed d ↔ index.Provides d m := by
  rw [contributed_eq, List.mem_append, mem_traitMethods_iff, Provides]

/-! ## The first method of each name -/

theorem firstOfEachName_sublist : ∀ (seen : List String) (ms : List Method),
    (firstOfEachName seen ms).Sublist ms
  | _, [] => List.Sublist.slnil
  | seen, m :: rest => by
    simp only [firstOfEachName]
    split
    · exact (firstOfEachName_sublist seen rest).cons m
    · exact (firstOfEachName_sublist _ rest).cons_cons m

theorem firstOfEachName_fresh : ∀ (seen : List String) (ms : List Method),
    ∀ m ∈ firstOfEachName seen ms, lowerCase m.name ∉ seen
  | _, [], _, h => by simp [firstOfEachName] at h
  | seen, m :: rest, x, h => by
    simp only [firstOfEachName] at h
    split at h
    · exact firstOfEachName_fresh seen rest x h
    · rename_i hs
      rcases List.mem_cons.mp h with rfl | h
      · simpa using hs
      · exact fun hx => firstOfEachName_fresh _ rest x h (List.mem_cons_of_mem _ hx)

theorem firstOfEachName_nodup : ∀ (seen : List String) (ms : List Method),
    ((firstOfEachName seen ms).map fun m => lowerCase m.name).Nodup
  | _, [] => by simp [firstOfEachName]
  | seen, m :: rest => by
    simp only [firstOfEachName]
    split
    · exact firstOfEachName_nodup seen rest
    · rw [List.map_cons, List.nodup_cons]
      refine ⟨fun hm => ?_, firstOfEachName_nodup _ rest⟩
      obtain ⟨x, hx, he⟩ := List.mem_map.mp hm
      exact firstOfEachName_fresh _ rest x hx (he ▸ List.mem_cons_self)

/-- Contributions are filtered one behind the other, each by the names in front of it. -/
theorem firstOfEachName_append : ∀ (seen : List String) (as bs : List Method),
    ∃ seen', firstOfEachName seen (as ++ bs) = firstOfEachName seen as ++ firstOfEachName seen' bs
  | seen, [], bs => ⟨seen, rfl⟩
  | seen, m :: as, bs => by
    simp only [List.cons_append, firstOfEachName]
    split
    · exact firstOfEachName_append seen as bs
    · obtain ⟨seen', h⟩ := firstOfEachName_append (lowerCase m.name :: seen) as bs
      exact ⟨seen', by rw [h]; rfl⟩

/-- Look-ups do not notice the filter, but for the names that were seen before. -/
theorem find?_firstOfEachName (n : String) : ∀ (seen : List String) (ms : List Method),
    lowerCase n ∉ seen →
    (firstOfEachName seen ms).find? (fun m => sameIgnoringCase m.name n) =
      ms.find? fun m => sameIgnoringCase m.name n
  | _, [], _ => rfl
  | seen, m :: rest, h => by
    simp only [firstOfEachName, sameIgnoringCase]
    by_cases hm : lowerCase m.name = lowerCase n
    · rw [if_neg (by simpa [hm] using h)]
      simp [hm]
    · split
      · simpa [sameIgnoringCase, hm] using find?_firstOfEachName n seen rest h
      · have h' : lowerCase n ∉ lowerCase m.name :: seen := by
          simp only [List.mem_cons, not_or]
          exact ⟨fun e => hm e.symm, h⟩
        simpa [sameIgnoringCase, hm] using find?_firstOfEachName n _ rest h'

/-! ## The table -/

/-- The part of the table that one class of the chain contributes. -/
structure Share where
  own : List Method
  fromTraits : List Method

/-- A share consists of the class's own methods in the order of their declaration, and of methods
that it gets from traits. -/
def Share.Of (index : ClassIndex) (d : ClassDecl) (s : Share) : Prop :=
  s.own.Sublist d.methods ∧ ∀ m ∈ s.fromTraits, index.Gets d m

/-- The methods of a share: a class's own come first. -/
def Share.methods (s : Share) : List Method := s.own ++ s.fromTraits

/-- The filtered contributions of classes are the shares of these classes, one behind the other. -/
theorem firstOfEachName_shares (index : ClassIndex) : ∀ (seen : List String) (ds : List ClassDecl),
    ∃ shares, List.Forall₂ (Share.Of index) ds shares ∧
      firstOfEachName seen (ds.flatMap index.contributed) = shares.flatMap Share.methods
  | _, [] => ⟨[], .nil, rfl⟩
  | seen, d :: ds => by
    obtain ⟨seen₁, h₁⟩ := firstOfEachName_append seen (index.contributed d)
      (ds.flatMap index.contributed)
    obtain ⟨seen₂, h₂⟩ := firstOfEachName_append seen d.methods (index.traitMethods d)
    obtain ⟨shares, hs, h₃⟩ := firstOfEachName_shares index seen₁ ds
    refine ⟨⟨firstOfEachName seen d.methods, firstOfEachName seen₂ (index.traitMethods d)⟩ :: shares,
      .cons ⟨firstOfEachName_sublist _ _, fun m hm => ?_⟩ hs, ?_⟩
    · exact gets_of_mem_traitMethods ((firstOfEachName_sublist _ _).subset hm)
    · rw [List.flatMap_cons, List.flatMap_cons, h₁, contributed_eq, h₂, h₃]
      rfl

/-- Looking up in the table is looking up in all contributions in order. -/
theorem findMethod?_eq (index : ClassIndex) (name n : String) :
    index.findMethod? name n =
      ((index.chain name).flatMap index.contributed).find? fun m => sameIgnoringCase m.name n :=
  find?_firstOfEachName n [] _ List.not_mem_nil

theorem named_iff {n : String} {m : Method} : sameIgnoringCase m.name n = true ↔ Named n m := by
  simp [sameIgnoringCase, Named]

theorem of_find?_named {n : String} {ms : List Method} {m : Method}
    (h : ms.find? (fun m => sameIgnoringCase m.name n) = some m) : m ∈ ms ∧ Named n m := by
  refine ⟨List.mem_of_find?_eq_some h, named_iff.mp ?_⟩
  simpa using List.find?_some h

theorem find?_named_eq_none {n : String} {ms : List Method} (h : ∀ m ∈ ms, ¬ Named n m) :
    ms.find? (fun m => sameIgnoringCase m.name n) = none :=
  List.find?_eq_none.mpr fun m hm he => h m hm (named_iff.mp he)

/-- The names of the table are those that the chain provides. -/
theorem exists_named_iff {index : ClassIndex} {name n : String} :
    (∃ m ∈ index.methodsOf name, Named n m) ↔
      ∃ d ∈ index.chain name, ∃ m, index.Provides d m ∧ Named n m := by
  constructor
  · rintro ⟨m, hm, hn⟩
    obtain ⟨d, hd, hm⟩ := List.mem_flatMap.mp ((firstOfEachName_sublist _ _).subset hm)
    exact ⟨d, hd, m, mem_contributed_iff.mp hm, hn⟩
  · rintro ⟨d, hd, m, hm, hn⟩
    have hfound : (index.findMethod? name n).isSome := by
      rw [findMethod?_eq, List.find?_isSome]
      exact ⟨m, List.mem_flatMap.mpr ⟨d, hd, mem_contributed_iff.mpr hm⟩, named_iff.mpr hn⟩
    obtain ⟨m', hm'⟩ := Option.isSome_iff_exists.mp hfound
    exact ⟨m', of_find?_named hm'⟩

/-- A look-up gives the table's entry of a name. -/
theorem findMethod?_eq_some_iff {index : ClassIndex} {name n : String} {m : Method} :
    index.findMethod? name n = some m ↔ m ∈ index.methodsOf name ∧ Named n m := by
  refine ⟨of_find?_named, fun ⟨hm, hn⟩ => ?_⟩
  -- The look-up finds some entry of the name, and the table has only one of it.
  have hfound : (index.findMethod? name n).isSome :=
    List.find?_isSome.mpr ⟨m, hm, named_iff.mpr hn⟩
  obtain ⟨m', hm'⟩ := Option.isSome_iff_exists.mp hfound
  obtain ⟨hmem', hn'⟩ := of_find?_named hm'
  rw [hm', List.inj_on_of_nodup_map (firstOfEachName_nodup [] _) hmem' hm (hn'.trans hn.symm)]

/-- The answer of the first class that provides a name. -/
theorem findMethod?_first {index : ClassIndex} {name n : String} {before after : List ClassDecl}
    {d : ClassDecl} (hc : index.chain name = before ++ d :: after)
    (hb : ∀ c ∈ before, ∀ m, index.Provides c m → ¬ Named n m) :
    index.findMethod? name n = ((d.method? n).or
      ((index.traitMethods d).find? fun m => sameIgnoringCase m.name n)).or
      ((after.flatMap index.contributed).find? fun m => sameIgnoringCase m.name n) := by
  have hnone : (before.flatMap index.contributed).find?
      (fun m => sameIgnoringCase m.name n) = none := by
    refine find?_named_eq_none fun m hm => ?_
    obtain ⟨c, hc, hm⟩ := List.mem_flatMap.mp hm
    exact hb c hc m (mem_contributed_iff.mp hm)
  rw [findMethod?_eq, hc, List.flatMap_append, List.flatMap_cons, contributed_eq]
  simp only [List.find?_append, hnone, Option.none_or]
  rfl

/-- The method table of a class. Every name stands in it once. It consists of the shares of the
classes of the chain, in the order of the chain; each share holds methods that its class declares,
then methods that it gets from traits. Every method that a class of the chain declares or gets is in
the table by its name. A look-up of a name, in any letter case, gives the table's entry of that
name; it comes from the first class of the chain that declares it or gets it, and is the first one
that the class declares itself if there is one. The walk up the parents and those through the traits
end by themselves: a larger bound on their steps changes nothing. -/
theorem methodsOf_table (index : ClassIndex) (name : String) :
    ((index.methodsOf name).map fun m => lowerCase m.name).Nodup ∧
    (∃ shares, List.Forall₂ (Share.Of index) (index.chain name) shares ∧
      index.methodsOf name = shares.flatMap Share.methods) ∧
    (∀ d ∈ index.chain name, ∀ m, index.Provides d m →
      ∃ m' ∈ index.methodsOf name, Named m.name m') ∧
    (∀ n m, index.findMethod? name n = some m ↔ m ∈ index.methodsOf name ∧ Named n m) ∧
    (∀ n before d after, index.chain name = before ++ d :: after →
      (∀ c ∈ before, ∀ m, index.Provides c m → ¬ Named n m) →
      (∀ m, d.method? n = some m → index.findMethod? name n = some m) ∧
      (d.method? n = none → (∃ m, index.Gets d m ∧ Named n m) →
        ∃ m, index.findMethod? name n = some m ∧ index.Gets d m ∧ Named n m)) ∧
    (∀ bound ≥ index.size, index.climb bound [classKey name] name = index.ancestors name) ∧
    (∀ d ∈ index.chain name, ∀ bound ≥ d.traits.length + index.edges (·.traits),
      depthFirst index.traitsOf bound [] d.traits = index.usedTraits d) := by
  refine ⟨firstOfEachName_nodup [] _, firstOfEachName_shares index [] (index.chain name),
    fun d hd m hm => exists_named_iff.mpr ⟨d, hd, m, hm, rfl⟩,
    fun _ _ => findMethod?_eq_some_iff, ?_, fun _ hb => ancestors_eq index name hb,
    fun d _ _ hb => usedTraits_eq index d hb⟩
  intro n before d after hc hb
  have heq := findMethod?_first hc hb
  refine ⟨fun m hm => by rw [heq, hm]; rfl, fun hnone ⟨m, hg, hn⟩ => ?_⟩
  have hfound : ((index.traitMethods d).find? fun m => sameIgnoringCase m.name n).isSome :=
    List.find?_isSome.mpr ⟨m, mem_traitMethods_iff.mpr hg, named_iff.mpr hn⟩
  obtain ⟨m', hm'⟩ := Option.isSome_iff_exists.mp hfound
  obtain ⟨hmem', hn'⟩ := of_find?_named hm'
  exact ⟨m', by rw [heq, hnone, hm']; rfl, gets_of_mem_traitMethods hmem', hn'⟩

end FacadeStubs.ClassIndex
