import FacadeStubs.Proofs.Index.Additions
import FacadeStubs.Proofs.MissingNames
import FacadeStubs.Proofs.Run.Decision

/-!
# A growing index

`Extends` says that an index declares all that another one declares, in the same way. Additions only
ever extend an index, since a key that is taken stays with its declaration. Whatever an index has
found, an extension of it still finds (`Keeps`):

* `ancestors_isPrefix`: a chain of parents goes on where it ended, and is the same up to there;
* `implements_extends`, `isSubclassOf_extends`, `isMarked_extends`: no supertype is lost;
* `methodsOf_extends`: no name of a method is lost, though another method may answer to it;
* `constant?_extends`: no constant is lost, though another value may stand for it;
* `additions_take_nothing`: all this, for added declarations and for the directories that a run
  indexes behind its sources.

Supertypes and traits are what can be reached (`interfaces_iff`, `mem_traitMethods_iff`), and steps
of an index are steps of its extension, so nothing is said of how the walks go.
-/
namespace FacadeStubs.ClassIndex

open Relation

/-- An index that declares all that another one declares. -/
def Extends (I J : ClassIndex) : Prop := ∀ name d, I.get? name = some d → J.get? name = some d

theorem Extends.refl (I : ClassIndex) : I.Extends I := fun _ _ h => h

theorem Extends.trans {I J K : ClassIndex} (h : I.Extends J) (h' : J.Extends K) : I.Extends K :=
  fun name d hd => h' name d (h name d hd)

/-! ## Additions extend -/

theorem extends_insertAll (index : ClassIndex) (ds : List ClassDecl) :
    index.Extends (index.insertAll ds) := by
  intro name d hd
  rw [get?_insertAll, hd, Option.some_or]

theorem extends_addFile (index : ClassIndex) (facts : FileFacts) :
    index.Extends (index.addFile facts) :=
  extends_insertAll { index with filesIndexed := index.filesIndexed + 1 } facts.classes

theorem extends_addSources? [Recovery] {base : String} : ∀ {files : List SourceFile}
    {index grown : ClassIndex}, index.addSources? base files = some grown → index.Extends grown
  | [], index, grown, h => by
    obtain rfl : index = grown := by simpa [addSources?] using h
    exact Extends.refl index
  | f :: files, index, grown, h => by
    simp only [addSources?, addSource?] at h
    obtain ⟨next, hnext, hrest⟩ := Option.bind_eq_some_iff.mp h
    obtain ⟨facts, -, rfl⟩ := Option.map_eq_some_iff.mp hnext
    exact (extends_addFile index facts).trans (extends_addSources? hrest)

theorem extends_indexDirectories [Recovery] {disk : Disk} {base : String} {dirs : List String}
    {index grown : ClassIndex} (h : Generation.indexDirectories disk base index dirs = .ok grown) :
    index.Extends grown := by
  obtain ⟨more, hmore⟩ := Generation.scans_of_indexDirectories h
  rw [Generation.indexDirectories_eq hmore, Generation.indexed_eq_ok_iff] at h
  exact extends_addSources? h

/-! ## Supertypes -/

section Supertypes

variable {I J : ClassIndex} {name : String}

theorem parentStep_extends (h : I.Extends J) {a b : String} (hstep : I.ParentStep a b) :
    J.ParentStep a b := by
  obtain ⟨d, hd, hkind, hparent⟩ := hstep
  exact ⟨d, h a d hd, hkind, hparent⟩

theorem interfaceStep_extends (h : I.Extends J) {a b : String} (hstep : I.InterfaceStep a b) :
    J.InterfaceStep a b := by
  obtain ⟨d, hd, hb⟩ := hstep
  exact ⟨d, h a d hd, hb⟩

theorem climb_isPrefix (h : I.Extends J) : ∀ (fuel : Nat) (seen : List String) (name : String),
    I.climb fuel seen name <+: J.climb fuel seen name
  | 0, _, _ => List.prefix_refl _
  | fuel + 1, seen, name => by
    simp only [climb]
    split
    · exact List.nil_prefix
    · rename_i p hp
      have hp' : J.parent? name = some p :=
        parent?_eq_some_iff.mpr (parentStep_extends h (parent?_eq_some_iff.mp hp))
      simp only [hp']
      split
      · exact List.prefix_refl _
      · rw [List.prefix_cons_inj]
        exact climb_isPrefix h fuel _ p

/-- The chain of parents is the same as far as it went. -/
theorem ancestors_isPrefix (h : I.Extends J) (name : String) :
    I.ancestors name <+: J.ancestors name := by
  rw [← ancestors_eq I name (Nat.le_max_left I.size J.size),
    ← ancestors_eq J name (Nat.le_max_right I.size J.size)]
  exact climb_isPrefix h _ _ name

theorem namesInterface_extends (h : I.Extends J) {i : String} (hi : I.NamesInterface name i) :
    J.NamesInterface name i := by
  rcases hi with ⟨a, d, ha, hd, hi⟩ | ⟨d, hd, hkind, hi⟩
  · left
    refine ⟨a, d, ?_, h a d hd, hi⟩
    exact ha.imp_right fun hmem => (ancestors_isPrefix h name).subset hmem
  · right
    exact ⟨d, h name d hd, hkind, hi⟩

theorem hasInterface_extends (h : I.Extends J) {i : String} (hi : I.HasInterface name i) :
    J.HasInterface name i := by
  obtain ⟨s, hs, hreach⟩ := hi
  refine ⟨s, namesInterface_extends h hs, ?_⟩
  exact ReflTransGen.mono (fun _ _ hstep => interfaceStep_extends h hstep) s i hreach

theorem lists_ancestors_extends (h : I.Extends J) {t : String} (ht : Lists (I.ancestors name) t) :
    Lists (J.ancestors name) t := by
  obtain ⟨a, ha, hk⟩ := ht
  exact ⟨a, (ancestors_isPrefix h name).subset ha, hk⟩

theorem lists_interfaces_extends (h : I.Extends J) {t : String} (ht : Lists (I.interfaces name) t) :
    Lists (J.interfaces name) t := by
  rw [interfaces_iff] at ht ⊢
  obtain ⟨u, hu, hk⟩ := ht
  exact ⟨u, hasInterface_extends h hu, hk⟩

theorem implements_extends (h : I.Extends J) {target : String}
    (ht : I.implements name target = true) : J.implements name target = true := by
  rw [implements_iff] at ht ⊢
  exact lists_interfaces_extends h ht

theorem isSubclassOf_extends (h : I.Extends J) {target : String}
    (ht : I.isSubclassOf name target = true) : J.isSubclassOf name target = true := by
  rw [isSubclassOf_iff] at ht ⊢
  obtain ⟨hne, hparent | hinterface⟩ := ht
  · exact ⟨hne, Or.inl (lists_ancestors_extends h hparent)⟩
  · exact ⟨hne, Or.inr (lists_interfaces_extends h hinterface)⟩

theorem isMarked_extends (h : I.Extends J) {markers : List String}
    (hm : Facade.isMarked I markers name = true) : Facade.isMarked J markers name = true := by
  simp only [Facade.isMarked, List.any_eq_true, Bool.or_eq_true] at hm ⊢
  obtain ⟨m, hmem, hsub | himpl⟩ := hm
  · exact ⟨m, hmem, Or.inl (isSubclassOf_extends h hsub)⟩
  · exact ⟨m, hmem, Or.inr (implements_extends h himpl)⟩

end Supertypes

/-! ## Methods and constants -/

section Members

variable {I J : ClassIndex} {name : String}

theorem chain_extends (h : I.Extends J) {d : ClassDecl} (hd : d ∈ I.chain name) :
    d ∈ J.chain name := by
  obtain ⟨a, ha, hget⟩ := mem_chain_iff.mp hd
  have hprefix : name :: I.ancestors name <+: name :: J.ancestors name := by
    rw [List.prefix_cons_inj]
    exact ancestors_isPrefix h name
  exact mem_chain_iff.mpr ⟨a, hprefix.subset ha, h a d hget⟩

theorem traitsOf_extends (h : I.Extends J) {t u : String} (hu : u ∈ I.traitsOf t) :
    u ∈ J.traitsOf t := by
  unfold traitsOf at hu ⊢
  cases ht : I.get? t with
  | none => simp [ht] at hu
  | some d =>
    rw [ht] at hu
    rw [h t d ht]
    exact hu

theorem reachable_extends (h : I.Extends J) {start : List String} {t : String}
    (ht : Reachable I.traitsOf start t) : Reachable J.traitsOf start t := by
  induction ht with
  | start ht => exact .start ht
  | step _ hu ih => exact .step ih (traitsOf_extends h hu)

theorem provides_extends (h : I.Extends J) {d : ClassDecl} {m : Method} (hm : I.Provides d m) :
    J.Provides d m := by
  rcases hm with hown | ⟨t, e, ht, he, hm⟩
  · exact Or.inl hown
  · exact Or.inr ⟨t, e, reachable_extends h ht, h t e he, hm⟩

theorem methodsOf_extends (h : I.Extends J) {n : String} (hm : ∃ m ∈ I.methodsOf name, Named n m) :
    ∃ m ∈ J.methodsOf name, Named n m := by
  rw [exists_named_iff] at hm ⊢
  obtain ⟨d, hd, m, hm, hn⟩ := hm
  exact ⟨d, chain_extends h hd, m, provides_extends h hm, hn⟩

/-- A constant is found if a declaration of the class, of a parent or of an interface has it. -/
theorem constant?_isSome_iff {index : ClassIndex} {const : String} :
    (index.constant? name const).isSome = true ↔
      ∃ a d, (a = name ∨ Lists (index.ancestors name) a ∨ Lists (index.interfaces name) a) ∧
        index.get? a = some d ∧ (d.constant? const).isSome = true := by
  simp only [constant?, List.findSome?_isSome_iff, List.mem_filterMap, List.mem_cons,
    List.mem_append]
  constructor
  · intro hfound
    obtain ⟨d, ⟨a, ha, hd⟩, hconst⟩ := hfound
    refine ⟨a, d, ?_, hd, hconst⟩
    rcases ha with rfl | hparent | hinterface
    · exact Or.inl rfl
    · exact Or.inr (Or.inl ⟨a, hparent, rfl⟩)
    · exact Or.inr (Or.inr ⟨a, hinterface, rfl⟩)
  · intro howner
    obtain ⟨a, d, ha, hd, hconst⟩ := howner
    rcases ha with rfl | ⟨b, hb, hk⟩ | ⟨b, hb, hk⟩
    · exact ⟨d, ⟨a, Or.inl rfl, hd⟩, hconst⟩
    · exact ⟨d, ⟨b, Or.inr (Or.inl hb), (get?_congr index hk).trans hd⟩, hconst⟩
    · exact ⟨d, ⟨b, Or.inr (Or.inr hb), (get?_congr index hk).trans hd⟩, hconst⟩

theorem constant?_extends (h : I.Extends J) {const : String}
    (hc : (I.constant? name const).isSome = true) : (J.constant? name const).isSome = true := by
  rw [constant?_isSome_iff] at hc ⊢
  obtain ⟨a, d, ha, hd, hconst⟩ := hc
  refine ⟨a, d, ?_, h a d hd, hconst⟩
  rcases ha with hself | hparent | hinterface
  · exact Or.inl hself
  · exact Or.inr (Or.inl (lists_ancestors_extends h hparent))
  · exact Or.inr (Or.inr (lists_interfaces_extends h hinterface))

end Members

/-- Nothing that an index answers is lost in another one. -/
structure Keeps (I J : ClassIndex) : Prop where
  get? (name : String) : I.contains name = true → J.get? name = I.get? name
  ancestors (name : String) : I.ancestors name <+: J.ancestors name
  implements (name target : String) :
    I.implements name target = true → J.implements name target = true
  isSubclassOf (name target : String) :
    I.isSubclassOf name target = true → J.isSubclassOf name target = true
  isMarked (markers : List String) (name : String) :
    Facade.isMarked I markers name = true → Facade.isMarked J markers name = true
  /-- A method of the same name, in any letter case, is still there. -/
  methodsOf (name : String) : ∀ m ∈ I.methodsOf name, ∃ m' ∈ J.methodsOf name, Named m.name m'
  constant? (name const : String) :
    (I.constant? name const).isSome = true → (J.constant? name const).isSome = true

theorem keeps_of_extends {I J : ClassIndex} (h : I.Extends J) : I.Keeps J where
  get? name hname := by
    obtain ⟨d, hd⟩ := Option.isSome_iff_exists.mp hname
    rw [h name d hd, hd]
  ancestors := ancestors_isPrefix h
  implements _ _ := implements_extends h
  isSubclassOf _ _ := isSubclassOf_extends h
  isMarked _ _ := isMarked_extends h
  methodsOf _ m hm := methodsOf_extends h ⟨m, hm, rfl⟩
  constant? _ _ := constant?_extends h

/-- Adding declarations never takes anything away: not in single additions, and not in those of the
directories that a run indexes behind its sources. -/
theorem additions_take_nothing [Recovery] (index : ClassIndex) :
    (∀ ds, index.Keeps (index.insertAll ds)) ∧
    (∀ disk base dirs grown, Generation.indexDirectories disk base index dirs = .ok grown →
      index.Keeps grown) := by
  constructor
  · intro ds
    exact keeps_of_extends (extends_insertAll index ds)
  · intro disk base dirs grown h
    exact keeps_of_extends (extends_indexDirectories h)

/-- A class whose parent is not declared. -/
def orphanIndex : ClassIndex where
  decls := [{ name := "Child", extendsNames := ["A"] }]

/-- The parent's directory is indexed behind the class, which then has the parent's interface. -/
theorem additions_take_nothing_orphan : ∃ grown,
    @Generation.indexDirectories .nothing Generation.soloDisk "" orphanIndex ["src"] = .ok grown ∧
    orphanIndex.Keeps grown ∧ orphanIndex.implements "Child" "M" = false ∧
    grown.implements "Child" "M" = true := by
  let recovery : Recovery := .nothing
  have hmarker : (Generation.indexDirectories Generation.soloDisk "" orphanIndex
      ["src"]).toOption.map (·.implements "Child" "M") = some true := by decide +kernel
  cases h : Generation.indexDirectories Generation.soloDisk "" orphanIndex ["src"] with
  | error e =>
    rw [h] at hmarker
    cases hmarker
  | ok grown =>
    rw [h] at hmarker
    have hkeeps : orphanIndex.Keeps grown := (additions_take_nothing orphanIndex).2 _ _ _ _ h
    exact ⟨grown, rfl, hkeeps, by decide +kernel, Option.some.inj hmarker⟩

end FacadeStubs.ClassIndex
