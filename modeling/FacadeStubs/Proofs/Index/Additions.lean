import FacadeStubs.Proofs.Index.Likeness
import Mathlib.Data.Finset.Card

/-!
# What additions make of an index

An index is built by additions, of single declarations and of whole files. It has the first
declaration of every name, and what it answers does not depend on anything else:

* `get?_built`: a look-up gives the first declaration of the name's key among all that were added;
* `nodup_keys`, `mem_keys_built`: every key is kept once, under its own declaration;
* `first_declaration_wins`: both, with the counts, and that the order of additions with different
  keys does not matter;
* `spelling_irrelevant`: how class names are spelled, in declarations and in questions, does not
  matter either.

The last two are two cases of one comparison of alike indices: the look-ups of the two indices are
equal, or related by spelling.
-/
namespace FacadeStubs.ClassIndex

/-- One step in which an index is built. -/
inductive Addition where
  | decl (d : ClassDecl)
  | file (facts : FileFacts)

/-- The declarations that are added, in order. -/
def Addition.decls : Addition → List ClassDecl
  | .decl d => [d]
  | .file facts => facts.classes

/-- Whether a whole file is added. -/
def Addition.isFile : Addition → Bool
  | .decl _ => false
  | .file _ => true

/-- An index after one addition. -/
def add (index : ClassIndex) : Addition → ClassIndex
  | .decl d => index.insert d
  | .file facts => index.addFile facts

/-- The index that additions build from nothing. -/
def built (adds : List Addition) : ClassIndex := adds.foldl add {}

/-- All declarations of some additions, in order. -/
def declared (adds : List Addition) : List ClassDecl := adds.flatMap Addition.decls

/-- An index after some declarations are added. -/
def insertAll (index : ClassIndex) (ds : List ClassDecl) : ClassIndex := ds.foldl insert index

/-- The key of a declaration. -/
def keyOf (d : ClassDecl) : String := classKey d.fqn

/-- The keys of an index, in the order of its declarations. -/
def keys (index : ClassIndex) : List String := index.decls.map keyOf

/-- The first of some declarations that has the key of a name. -/
def firstOf? (ds : List ClassDecl) (name : String) : Option ClassDecl :=
  ds.find? fun d => keyOf d == classKey name

/-- The earliest of some declarations that has the key of a name: none before it has the key. -/
def Earliest (ds : List ClassDecl) (name : String) (d : ClassDecl) : Prop :=
  keyOf d = classKey name ∧
    ∃ before after, ds = before ++ d :: after ∧ ∀ e ∈ before, keyOf e ≠ classKey name

/-! ## Single declarations -/

section Steps

variable {index other : ClassIndex} {d : ClassDecl} {k : String}

theorem nodup_keys (index : ClassIndex) : index.keys.Nodup := index.distinct

theorem contains_iff {name : String} : index.contains name = true ↔ classKey name ∈ index.keys := by
  simp [contains, get?, keys, keyOf]

/-- A declaration is left out if its key is taken, and else comes last. -/
theorem insert_cases (index : ClassIndex) (d : ClassDecl) :
    (keyOf d ∈ index.keys ∧ index.insert d = index) ∨
      (keyOf d ∉ index.keys ∧ (index.insert d).decls = index.decls ++ [d] ∧
        (index.insert d).filesIndexed = index.filesIndexed) := by
  unfold insert
  split
  · rename_i htaken
    exact Or.inl ⟨contains_iff.mp htaken, rfl⟩
  · rename_i hfree
    exact Or.inr ⟨fun htaken => hfree (contains_iff.mpr htaken), rfl, rfl⟩

theorem firstOf?_append (ds es : List ClassDecl) (name : String) :
    firstOf? (ds ++ es) name = (firstOf? ds name).or (firstOf? es name) := List.find?_append

theorem get?_eq_firstOf? (index : ClassIndex) (name : String) :
    index.get? name = firstOf? index.decls name := rfl

theorem get?_insert (index : ClassIndex) (d : ClassDecl) (name : String) :
    (index.insert d).get? name = (index.get? name).or (firstOf? [d] name) := by
  rcases insert_cases index d with ⟨htaken, heq⟩ | ⟨-, heq, -⟩
  · rw [heq]
    by_cases hk : keyOf d = classKey name
    · have hfound : index.contains name = true := contains_iff.mpr (hk ▸ htaken)
      obtain ⟨e, he⟩ := Option.isSome_iff_exists.mp hfound
      rw [he, Option.some_or]
    · simp [firstOf?, hk]
  · rw [get?_eq_firstOf?, heq]
    exact firstOf?_append index.decls [d] name

theorem mem_keys_insert : k ∈ (index.insert d).keys ↔ k ∈ index.keys ∨ k = keyOf d := by
  rcases insert_cases index d with ⟨htaken, heq⟩ | ⟨-, heq, -⟩
  · rw [heq]
    constructor
    · exact Or.inl
    · intro hk
      rcases hk with hk | rfl
      · exact hk
      · exact htaken
  · simp [heq, keys]

theorem filesIndexed_insert : (index.insert d).filesIndexed = index.filesIndexed := by
  rcases insert_cases index d with ⟨-, heq⟩ | ⟨-, -, heq⟩
  · rw [heq]
  · exact heq

/-- The count of files has no part in what is added. -/
theorem decls_insert_congr (h : index.decls = other.decls) :
    (index.insert d).decls = (other.insert d).decls := by
  have hkeys : index.keys = other.keys := congrArg (List.map keyOf) h
  rcases insert_cases index d with ⟨hin, heq⟩ | ⟨hin, heq, -⟩ <;>
    rcases insert_cases other d with ⟨hout, heq'⟩ | ⟨hout, heq', -⟩
  · rw [heq, heq', h]
  · exact absurd (hkeys ▸ hin) hout
  · exact absurd (hkeys ▸ hout) hin
  · simp [heq, heq', h]

end Steps

/-! ## Runs of additions -/

section Runs

variable {other : ClassIndex} {ds : List ClassDecl} {adds : List Addition} (index : ClassIndex)

theorem get?_insertAll (ds : List ClassDecl) (name : String) :
    (index.insertAll ds).get? name = (index.get? name).or (firstOf? ds name) := by
  induction ds generalizing index with
  | nil => simp [insertAll, firstOf?]
  | cons d rest ih =>
    have hsplit : firstOf? (d :: rest) name = (firstOf? [d] name).or (firstOf? rest name) :=
      firstOf?_append [d] rest name
    show ((index.insert d).insertAll rest).get? name = _
    rw [ih, get?_insert, Option.or_assoc, hsplit]

theorem insertAll_append (ds es : List ClassDecl) :
    index.insertAll (ds ++ es) = (index.insertAll ds).insertAll es := List.foldl_append

theorem decls_insertAll_congr {index : ClassIndex} (h : index.decls = other.decls) :
    (index.insertAll ds).decls = (other.insertAll ds).decls := by
  induction ds generalizing index other with
  | nil => exact h
  | cons d rest ih => exact ih (decls_insert_congr h)

theorem mem_keys_insertAll {k : String} :
    k ∈ (index.insertAll ds).keys ↔ k ∈ index.keys ∨ k ∈ ds.map keyOf := by
  induction ds generalizing index with
  | nil => simp [insertAll]
  | cons d rest ih =>
    have hrest := ih (index.insert d)
    rw [mem_keys_insert] at hrest
    rw [List.map_cons, List.mem_cons, ← or_assoc]
    exact hrest

theorem filesIndexed_insertAll : (index.insertAll ds).filesIndexed = index.filesIndexed := by
  induction ds generalizing index with
  | nil => rfl
  | cons d rest ih => exact (ih _).trans filesIndexed_insert

/-- Files add their declarations as if these came one by one. -/
theorem decls_foldl_add :
    (adds.foldl add index).decls = (index.insertAll (declared adds)).decls := by
  induction adds generalizing index with
  | nil => rfl
  | cons a rest ih =>
    have hstep : (index.add a).decls = (index.insertAll a.decls).decls := by
      cases a with
      | decl d => rfl
      | file facts =>
        show (insertAll { index with filesIndexed := index.filesIndexed + 1 } facts.classes).decls =
          (index.insertAll facts.classes).decls
        exact decls_insertAll_congr rfl
    show (rest.foldl add (index.add a)).decls = (index.insertAll (a.decls ++ declared rest)).decls
    rw [ih, insertAll_append, decls_insertAll_congr hstep]

theorem filesIndexed_foldl_add :
    (adds.foldl add index).filesIndexed = index.filesIndexed + adds.countP Addition.isFile := by
  induction adds generalizing index with
  | nil => rfl
  | cons a rest ih =>
    rw [List.foldl_cons, ih, List.countP_cons]
    cases a with
    | decl d =>
      have hstep : (index.add (.decl d)).filesIndexed = index.filesIndexed := filesIndexed_insert
      simp [hstep, Addition.isFile]
    | file facts =>
      have hstep : (index.add (.file facts)).filesIndexed = index.filesIndexed + 1 :=
        filesIndexed_insertAll { index with filesIndexed := index.filesIndexed + 1 }
      simp [hstep, Addition.isFile]
      omega

end Runs

/-! ## What is built -/

section Built

variable (adds : List Addition)

theorem decls_built : (built adds).decls = (insertAll {} (declared adds)).decls :=
  decls_foldl_add {}

/-- A look-up gives the first declaration of the name's key. -/
theorem get?_built (name : String) : (built adds).get? name = firstOf? (declared adds) name := by
  rw [get?_eq_firstOf?, decls_built, ← get?_eq_firstOf?, get?_insertAll]
  rfl

theorem keys_built : (built adds).keys = (insertAll {} (declared adds)).keys :=
  congrArg (List.map keyOf) (decls_built adds)

theorem mem_keys_built {k : String} : k ∈ (built adds).keys ↔ k ∈ (declared adds).map keyOf := by
  rw [keys_built, mem_keys_insertAll]
  simp [keys]

/-- There are as many declarations as different keys. -/
theorem size_built : (built adds).size = ((declared adds).map keyOf).toFinset.card := by
  have hkeys : (built adds).keys.toFinset = ((declared adds).map keyOf).toFinset := by
    ext k
    simp only [List.mem_toFinset, mem_keys_built]
  calc (built adds).size = (built adds).keys.length := (List.length_map keyOf).symm
    _ = (built adds).keys.toFinset.card :=
      (List.toFinset_card_of_nodup (nodup_keys (built adds))).symm
    _ = ((declared adds).map keyOf).toFinset.card := by rw [hkeys]

theorem filesIndexed_built : (built adds).filesIndexed = adds.countP Addition.isFile := by
  rw [built, filesIndexed_foldl_add, Nat.zero_add]

end Built

/-! ## First and only declarations -/

theorem firstOf?_eq_some_iff {ds : List ClassDecl} {name : String} {d : ClassDecl} :
    firstOf? ds name = some d ↔ Earliest ds name d := by
  simp [firstOf?, Earliest, List.find?_eq_some_iff_append]

theorem firstOf?_eq_none_iff {ds : List ClassDecl} {name : String} :
    firstOf? ds name = none ↔ ∀ d ∈ ds, keyOf d ≠ classKey name := by
  simp [firstOf?]

/-- Where no key comes twice, a declaration of a key is the first one. -/
theorem firstOf?_iff_mem {ds : List ClassDecl} (hn : (ds.map keyOf).Nodup) {name : String}
    {d : ClassDecl} : firstOf? ds name = some d ↔ d ∈ ds ∧ keyOf d = classKey name := by
  constructor
  · intro h
    exact ⟨List.mem_of_find?_eq_some h, by simpa using List.find?_some h⟩
  · intro h
    obtain ⟨hd, hk⟩ := h
    have hfound : (firstOf? ds name).isSome := List.find?_isSome.mpr ⟨d, hd, by simpa using hk⟩
    obtain ⟨e, he⟩ := Option.isSome_iff_exists.mp hfound
    have hke : keyOf e = classKey name := by simpa using List.find?_some he
    rw [he, List.inj_on_of_nodup_map hn (List.mem_of_find?_eq_some he) hd (hke.trans hk.symm)]

theorem firstOf?_perm {ds es : List ClassDecl} (hp : ds.Perm es) (hn : (ds.map keyOf).Nodup)
    (name : String) : firstOf? ds name = firstOf? es name := by
  have hn' : (es.map keyOf).Nodup := (hp.map keyOf).nodup_iff.mp hn
  apply Option.ext
  intro d
  rw [firstOf?_iff_mem hn, firstOf?_iff_mem hn', hp.mem_iff]

/-- The same additions in another order add the same declarations in another order. -/
theorem declared_perm {adds others : List Addition} (h : adds.Perm others) :
    (declared adds).Perm (declared others) := h.flatMap_right _

/-- Two indices that give the same answer to every question about names. -/
structure SameAnswers (I J : ClassIndex) : Prop where
  get? (name : String) : I.get? name = J.get? name
  ancestors (name : String) : I.ancestors name = J.ancestors name
  interfaces (name : String) : I.interfaces name = J.interfaces name
  implements (name target : String) : I.implements name target = J.implements name target
  isSubclassOf (name target : String) : I.isSubclassOf name target = J.isSubclassOf name target
  methodsOf (name : String) : I.methodsOf name = J.methodsOf name
  findMethod? (name method : String) : I.findMethod? name method = J.findMethod? name method
  constant? (name const : String) : I.constant? name const = J.constant? name const
  unindexedSupertypes (name : String) : I.unindexedSupertypes name = J.unindexedSupertypes name

theorem respelled_refl {R : String → String → Prop} (hR : ∀ a, R a a) (d : ClassDecl) :
    Respelled R d d :=
  ⟨rfl, List.forall₂_same.mpr fun a _ => hR a, List.forall₂_same.mpr fun a _ => hR a,
    List.forall₂_same.mpr fun a _ => hR a⟩

/-- An index is known by its look-ups. -/
theorem alike_of_get? {I J : ClassIndex} (h : ∀ name, I.get? name = J.get? name) :
    Alike Eq I J where
  key := congrArg classKey
  get := by
    intro a b hab
    rw [hab, h b]
    cases J.get? b with
    | none => exact .none
    | some d => exact .some (respelled_refl (fun _ => rfl) d)

theorem sameAnswers_of_get? {I J : ClassIndex} (h : ∀ name, I.get? name = J.get? name) :
    SameAnswers I J := by
  have halike := alike_of_get? h
  have heq : ∀ {as bs : List String}, List.Forall₂ Eq as bs → as = bs := by
    intro as bs hab
    rwa [List.forall₂_eq_eq_eq] at hab
  exact
    { get? := h
      ancestors := fun _ => heq (ancestors_alike halike rfl)
      interfaces := fun _ => heq (interfaces_alike halike rfl)
      implements := fun _ _ => implements_alike halike rfl rfl
      isSubclassOf := fun _ _ => isSubclassOf_alike halike rfl rfl
      methodsOf := fun _ => methodsOf_alike halike rfl
      findMethod? := fun _ _ => findMethod?_alike halike rfl rfl
      constant? := fun _ const => constant?_alike halike rfl const
      unindexedSupertypes := fun _ => heq (unindexedSupertypes_alike halike rfl) }

/-- The first declaration of a name wins, and otherwise the order of additions does not matter.

After any additions, of declarations or files, a look-up gives the earliest declaration with the
key of the name, and nothing if there is none. Every declaration of the index is found by its own
name. The index has as many declarations as there were different keys, and counts the files. If no
key was declared twice, then the same declarations in any other order, in files or not, give an
index with the same answers. -/
theorem first_declaration_wins (adds : List Addition) :
    (∀ name d, (built adds).get? name = some d ↔ Earliest (declared adds) name d) ∧
    (∀ name, (built adds).get? name = none ↔ ∀ d ∈ declared adds, keyOf d ≠ classKey name) ∧
    (∀ d ∈ (built adds).decls, (built adds).get? d.fqn = some d) ∧
    (built adds).size = ((declared adds).map keyOf).toFinset.card ∧
    (built adds).filesIndexed = adds.countP Addition.isFile ∧
    (∀ others, (declared adds).Perm (declared others) → ((declared adds).map keyOf).Nodup →
      SameAnswers (built adds) (built others)) := by
  refine ⟨fun name d => ?_, fun name => ?_, fun d hd => ?_, size_built adds,
    filesIndexed_built adds, fun others hp hn => ?_⟩
  · rw [get?_built, firstOf?_eq_some_iff]
  · rw [get?_built, firstOf?_eq_none_iff]
  · exact (firstOf?_iff_mem (nodup_keys (built adds))).mpr ⟨hd, rfl⟩
  · apply sameAnswers_of_get?
    intro name
    rw [get?_built, get?_built, firstOf?_perm hp hn]

/-- A class with a parent in another file, and with a trait. -/
def childDecl : ClassDecl := { name := "Child", extendsNames := ["Base"], traits := ["Retries"] }

/-- The file of the parent. -/
def baseFile : FileFacts :=
  { path := "Base.php", classes := [{ name := "Base", implementsNames := ["Marker"] }] }

/-- The parent's file before the class or behind it: the class has the parent's interface. -/
theorem first_declaration_wins_swapped :
    SameAnswers (built [.decl childDecl, .file baseFile])
      (built [.file baseFile, .decl childDecl]) ∧
    (built [.file baseFile, .decl childDecl]).implements "child" "\\MARKER" = true := by
  have hperm : (declared [.decl childDecl, .file baseFile]).Perm
      (declared [.file baseFile, .decl childDecl]) := declared_perm (List.Perm.swap _ _ _)
  have hkeys : ((declared [.decl childDecl, .file baseFile]).map keyOf).Nodup := by decide +kernel
  exact ⟨(first_declaration_wins _).2.2.2.2.2 _ hperm hkeys, by decide +kernel⟩

/-! ## Spellings -/

/-- Two spellings of one class name: the same but for letter case and leading backslashes. -/
def SameKey (a b : String) : Prop := classKey a = classKey b

instance (a b : String) : Decidable (SameKey a b) :=
  inferInstanceAs (Decidable (classKey a = classKey b))

theorem SameKey.refl (a : String) : SameKey a a := Eq.refl (classKey a)

theorem firstOf?_respelled {R : String → String → Prop} {ds es : List ClassDecl}
    (h : List.Forall₂ (Respelled R) ds es) {a b : String} (hab : SameKey a b) :
    Option.Rel (Respelled R) (firstOf? ds a) (firstOf? es b) := by
  have hab : classKey a = classKey b := hab
  induction h with
  | nil => exact .none
  | @cons d e ds es hde _ ih =>
    have hkey : keyOf e = keyOf d := congrArg classKey hde.fqn
    simp only [firstOf?, hab] at ih
    simp only [firstOf?, List.find?_cons, hkey, hab]
    split
    · exact .some hde
    · exact ih

/-- Indices built from declarations that differ in spelling differ in spelling. -/
theorem alike_of_respelled {adds others : List Addition}
    (h : List.Forall₂ (Respelled SameKey) (declared adds) (declared others)) :
    Alike SameKey (built adds) (built others) where
  key hab := hab
  get hab := by
    rw [get?_built, get?_built]
    exact firstOf?_respelled h hab

/-- How class names are spelled does not matter.

Two indices are built from the same declarations, in which the names of parents, interfaces and
traits are spelled in different ways, and are asked about a class in different spellings. They agree
on what the class implements and derives from, on its methods and constants, and, for any spelling
of the markers, on whether it is marked. The parents, interfaces and missing supertypes that they
list are the same names, entry by entry, in perhaps different spellings. -/
theorem spelling_irrelevant {adds others : List Addition}
    (h : List.Forall₂ (Respelled SameKey) (declared adds) (declared others)) {name name' : String}
    (hname : SameKey name name') :
    (∀ target target', SameKey target target' →
      (built adds).implements name target = (built others).implements name' target' ∧
      (built adds).isSubclassOf name target = (built others).isSubclassOf name' target') ∧
    (built adds).methodsOf name = (built others).methodsOf name' ∧
    (∀ method method', lowerCase method = lowerCase method' →
      (built adds).findMethod? name method = (built others).findMethod? name' method') ∧
    (∀ const, (built adds).constant? name const = (built others).constant? name' const) ∧
    List.Forall₂ SameKey ((built adds).ancestors name) ((built others).ancestors name') ∧
    List.Forall₂ SameKey ((built adds).interfaces name) ((built others).interfaces name') ∧
    List.Forall₂ SameKey ((built adds).unindexedSupertypes name)
      ((built others).unindexedSupertypes name') ∧
    (∀ markers markers', List.Forall₂ SameKey markers markers' →
      Facade.isMarked (built adds) markers name =
        Facade.isMarked (built others) markers' name') := by
  have halike := alike_of_respelled h
  refine ⟨?_, methodsOf_alike halike hname, ?_, constant?_alike halike hname,
    ancestors_alike halike hname, interfaces_alike halike hname,
    unindexedSupertypes_alike halike hname, ?_⟩
  · intro target target' htarget
    exact ⟨implements_alike halike hname htarget, isSubclassOf_alike halike hname htarget⟩
  · intro method method' hmethod
    exact findMethod?_alike halike hname hmethod
  · intro markers markers' hmarkers
    exact isMarked_alike halike hname hmarkers

/-- The class with its parent and its trait spelled otherwise. -/
def oddChildDecl : ClassDecl :=
  { childDecl with extendsNames := ["\\BASE"], traits := ["reTries"] }

/-- The interface of the parent is found through the other spellings, and the missing trait is named
in each index as it is spelled there. -/
theorem spelling_irrelevant_odd :
    (built [.decl childDecl, .file baseFile]).implements "Child" "Marker" =
      (built [.decl oddChildDecl, .file baseFile]).implements "\\cHILD" "marker" ∧
    (built [.decl oddChildDecl, .file baseFile]).implements "\\cHILD" "marker" = true ∧
    List.Forall₂ SameKey ((built [.decl childDecl, .file baseFile]).unindexedSupertypes "Child")
      ((built [.decl oddChildDecl, .file baseFile]).unindexedSupertypes "\\cHILD") ∧
    (built [.decl oddChildDecl, .file baseFile]).unindexedSupertypes "\\cHILD" = ["reTries"] := by
  have hname : SameKey "Child" "\\cHILD" := by decide +kernel
  have htarget : SameKey "Marker" "marker" := by decide +kernel
  have hparent : SameKey "Base" "\\BASE" := by decide +kernel
  have htrait : SameKey "Retries" "reTries" := by decide +kernel
  have hchild : Respelled SameKey childDecl oddChildDecl :=
    ⟨rfl, .cons hparent .nil, .nil, .cons htrait .nil⟩
  have hdecls : List.Forall₂ (Respelled SameKey) (declared [.decl childDecl, .file baseFile])
      (declared [.decl oddChildDecl, .file baseFile]) :=
    .cons hchild (.cons (respelled_refl SameKey.refl _) .nil)
  obtain ⟨hsubtypes, -, -, -, -, -, hmissing, -⟩ := spelling_irrelevant hdecls hname
  exact ⟨(hsubtypes _ _ htarget).1, by decide +kernel, hmissing, by decide +kernel⟩

end FacadeStubs.ClassIndex
