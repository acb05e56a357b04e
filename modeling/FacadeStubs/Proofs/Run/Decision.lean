import FacadeStubs.Generation
import FacadeStubs.Proofs.Export.Termination
import FacadeStubs.Proofs.FileTree.SourceFiles
import FacadeStubs.Proofs.Worklist
import Mathlib.Data.List.Forall2

/-!
# What a run decides

A run goes over the scanned files once. The declaration that makes a file a facade (`facadeOf?`) is
either forwarded to a service (`Forwards`) or has a fault (`Fault`): of its accessor, of the registry,
of the index, or of a default that has no text, in this order. They are stated without the loop, and
the loop is shown to follow them:

Files that are not in the grammar take part with what a parser recovers from them (`Recovery`). What that
is stays open, so all of this holds whatever is recovered.

* `indexDirectories_eq`, `gather_eq`: all sources of a run are indexed one behind the other;
* `itemsUntilError_cases`: either every facade is forwarded, or the loop stops at the first fault;
* `run_decides`: when a run succeeds, what it reports, and which error it ends with.
-/
namespace FacadeStubs

open Php

/-! ## Gathering the sources -/

namespace ClassIndex

/-- Sources that can be analysed are added by what they declare. -/
theorem addSources?_of_facts [Recovery] {base : String} {fs : List SourceFile} {facts : List FileFacts}
    (h : List.Forall₂ (fun f x => fileFacts? ((Path.stripPrefix? f.path base).getD f.path) f.content =
      some x) fs facts) (index : ClassIndex) :
    index.addSources? base fs = some (facts.foldl ClassIndex.addFile index) := by
  induction h generalizing index with
  | nil => rfl
  | cons hfacts _ ih =>
    rw [addSources?, addSource?, hfacts, Option.map_some, Option.bind_some, ih]
    rfl

theorem addSources?_append [Recovery] (base : String) (gs : List SourceFile) :
    ∀ (fs : List SourceFile) (index : ClassIndex), index.addSources? base (fs ++ gs) =
      (index.addSources? base fs).bind fun i => i.addSources? base gs
  | [], _ => rfl
  | f :: fs, index => by
    simp only [List.cons_append, addSources?, Option.bind_assoc]
    congr 1
    funext i
    exact addSources?_append base gs fs i

end ClassIndex

/-- The empty namespace is the global one. -/
theorem ClassDecl.qualifiedName_getD (decl : ClassDecl) :
    qualifiedName (some (decl.namespaceName.getD "")) decl.name = decl.fqn := by
  unfold ClassDecl.fqn
  cases decl.namespaceName <;> rfl

namespace Generation

/-- The walks of a run: its exclude patterns can be read, and the source directory and the
directories that are only indexed can be walked. -/
structure Scans (c : Config) (r : Registry) (d : Disk) (files : List SourceFile)
    (more : List (List SourceFile)) : Prop where
  sources : ∃ excluded, patterns c.excludedPaths = .ok excluded ∧
    scanAt d (Path.join (root c r) c.sourceDir) excluded = .ok files
  indexed : List.Forall₂ (fun dir found => scanAt d (Path.join (root c r) dir) [] = .ok found)
    c.indexPaths more

/-- The index of all that a run has read, unless an import has its braces crossed. -/
def indexOf? [Recovery] (c : Config) (r : Registry) (files : List SourceFile)
    (more : List (List SourceFile)) : Option ClassIndex :=
  ({} : ClassIndex).addSources? (root c r) (files ++ more.flatten)

theorem scanAt_eq_ok_iff {d : Disk} {path : String} {excluded : List (List Glob.Token)}
    {files : List SourceFile} :
    scanAt d path excluded = .ok files ↔ scan d path excluded = .ok files := by
  unfold scanAt
  cases scan d path excluded <;> simp [Except.mapError]

theorem indexed_eq_ok_iff [Recovery] {index i : ClassIndex} {base : String} {files : List SourceFile} :
    indexed index base files = .ok i ↔ index.addSources? base files = some i := by
  unfold indexed
  cases index.addSources? base files <;> simp

theorem indexed_eq_error [Recovery] {index : ClassIndex} {base : String} {files : List SourceFile}
    (h : index.addSources? base files = none) : indexed index base files = .error .crossedBraces := by
  simp [indexed, h]

/-- Directories are indexed one behind the other. -/
theorem indexDirectories_eq [Recovery] {d : Disk} {base : String} {dirs : List String}
    {more : List (List SourceFile)}
    (h : List.Forall₂ (fun dir found => scanAt d (Path.join base dir) [] = .ok found) dirs more)
    (index : ClassIndex) :
    indexDirectories d base index dirs = indexed index base more.flatten := by
  induction h generalizing index with
  | nil => rfl
  | @cons dir found dirs more hscan _ ih =>
    simp only [indexDirectories, hscan, bind, Except.bind, List.flatten_cons]
    cases hfound : index.addSources? base found with
    | none =>
      rw [indexed_eq_error hfound, indexed_eq_error]
      rw [ClassIndex.addSources?_append, hfound]
      rfl
    | some i =>
      rw [indexed_eq_ok_iff.mpr hfound]
      simp only [ih, indexed, ClassIndex.addSources?_append, hfound, Option.bind_some]

section Gather

variable {c : Config} {r : Registry} {d : Disk} {files : List SourceFile}
  {more : List (List SourceFile)} {index : ClassIndex}

theorem gather_eq [Recovery] (h : Scans c r d files more) :
    gather c r d = (indexed {} (root c r) (files ++ more.flatten)).map fun index => (files, index) := by
  obtain ⟨excluded, hpatterns, hscan⟩ := h.sources
  simp only [gather, hpatterns, hscan, bind, Except.bind, indexed, ClassIndex.addSources?_append]
  cases ({} : ClassIndex).addSources? (root c r) files with
  | none => rfl
  | some i =>
    simp only [Option.bind_some, indexDirectories_eq h.indexed, indexed]
    cases i.addSources? (root c r) more.flatten <;> rfl

theorem gather_eq_ok [Recovery] (h : Scans c r d files more) (hi : indexOf? c r files more = some index) :
    gather c r d = .ok (files, index) := by
  rw [gather_eq h, indexed_eq_ok_iff.mpr hi]
  rfl

theorem gather_eq_error [Recovery] (h : Scans c r d files more) (hi : indexOf? c r files more = none) :
    gather c r d = .error .crossedBraces := by
  rw [gather_eq h, indexed_eq_error hi]
  rfl

/-- The directories of a run that got its index could be walked. -/
theorem scans_of_indexDirectories [Recovery] {base : String} : ∀ {dirs : List String} {i : ClassIndex},
    indexDirectories d base i dirs = .ok index → ∃ more, List.Forall₂
      (fun dir found => scanAt d (Path.join base dir) [] = .ok found) dirs more
  | [], _, _ => ⟨[], .nil⟩
  | dir :: dirs, i, h => by
    simp only [indexDirectories, bind, Except.bind] at h
    cases hscan : scanAt d (Path.join base dir) [] with
    | error e => rw [hscan] at h; cases h
    | ok found =>
      cases hindexed : indexed i base found with
      | error e => simp only [hscan, hindexed] at h; cases h
      | ok j =>
        simp only [hscan, hindexed] at h
        obtain ⟨more, hmore⟩ := scans_of_indexDirectories h
        exact ⟨found :: more, .cons hscan hmore⟩

/-- A run that got its index could walk all its directories. -/
theorem scans_of_gather [Recovery] (h : gather c r d = .ok (files, index)) :
    ∃ more, Scans c r d files more ∧ indexOf? c r files more = some index := by
  have hgather := h
  simp only [gather, bind, Except.bind] at h
  cases hpatterns : patterns c.excludedPaths with
  | error e => rw [hpatterns] at h; cases h
  | ok excluded =>
    simp only [hpatterns] at h
    cases hscan : scanAt d (Path.join (root c r) c.sourceDir) excluded with
    | error e => rw [hscan] at h; cases h
    | ok found =>
      simp only [hscan] at h
      cases hfound : indexed {} (root c r) found with
      | error e => rw [hfound] at h; cases h
      | ok i =>
        simp only [hfound] at h
        cases hrest : indexDirectories d (root c r) i c.indexPaths with
        | error e => rw [hrest] at h; cases h
        | ok j =>
          rw [hrest] at h
          cases h
          obtain ⟨more, hmore⟩ := scans_of_indexDirectories hrest
          have hscans : Scans c r d files more := ⟨⟨excluded, hpatterns, hscan⟩, hmore⟩
          refine ⟨more, hscans, ?_⟩
          cases hi : indexOf? c r files more with
          | none => rw [gather_eq_error hscans hi] at hgather; cases hgather
          | some k =>
            rw [gather_eq_ok hscans hi] at hgather
            cases hgather
            rfl

end Gather

/-! ## Facades and their faults -/

/-- The declaration that makes a scanned file a facade: its candidate is indexed, concrete, and
below a marker. -/
def facadeOf? (c : Config) (index : ClassIndex) (f : SourceFile) : Option ClassDecl :=
  f.candidate?.bind fun candidate => (index.get? candidate.fqn).filter fun decl =>
    decl.isInstantiable && Facade.isMarked index c.markers candidate.fqn

/-- Every default that is written for the methods that a class forwards comes to an end. -/
def DefaultsEnd (index : ClassIndex) (service : String) : Prop :=
  ∀ m ∈ (index.methodsOf service).filter Method.isForwardable, ∀ v ∈ writtenDefaults m.params,
    Export.Ends index (.value Export.maxDepth v)

/-- A facade is forwarded: its accessor is a key, the registry has a class for the key, the class
is indexed, and the defaults of its methods can be written. The report names the facade and the
service as they are declared, and counts the methods that can be forwarded. -/
inductive Forwards (c : Config) (r : Registry) (index : ClassIndex) (decl : ClassDecl) :
    FacadeSummary → Prop where
  | via {key cls : String} {service : ClassDecl} : Facade.accessorKey index decl = .ok key →
      service? c r index key = some cls → index.get? cls = some service →
      DefaultsEnd index service.fqn →
      Forwards c r index decl ⟨decl.fqn, key, service.fqn,
        ((index.methodsOf service.fqn).filter Method.isForwardable).length⟩

/-- Why a facade is not forwarded. The accessor comes before the registry, the registry before the
index, and the index before the defaults. -/
inductive Fault (c : Config) (r : Registry) (index : ClassIndex) (decl : ClassDecl) : Error → Prop where
  | accessor : (∀ key, Facade.accessorKey index decl ≠ .ok key) →
      Fault c r index decl (.accessorUnresolved decl.fqn)
  | service {key : String} : Facade.accessorKey index decl = .ok key →
      service? c r index key = none → Fault c r index decl (.serviceNotFound key)
  | cls {key cls : String} : Facade.accessorKey index decl = .ok key →
      service? c r index key = some cls → index.get? cls = none →
      Fault c r index decl (.serviceClassUnknown key cls)
  | endless {key cls : String} {service : ClassDecl} : Facade.accessorKey index decl = .ok key →
      service? c r index key = some cls → index.get? cls = some service →
      ¬ DefaultsEnd index service.fqn → Fault c r index decl (.endlessDefault service.fqn)

/-- The first fault among files: all facades in front of it are forwarded. -/
def FirstFault (c : Config) (r : Registry) (index : ClassIndex) (files : List SourceFile)
    (e : Error) : Prop :=
  ∃ before f after decl, files = before ++ f :: after ∧ facadeOf? c index f = some decl ∧
    Fault c r index decl e ∧
    ∀ g ∈ before, ∀ decl', facadeOf? c index g = some decl' → ∃ s, Forwards c r index decl' s

section Items

variable {c : Config} {r : Registry} {index : ClassIndex} {decl : ClassDecl} {f : SourceFile}

theorem get?_of_facadeOf? (h : facadeOf? c index f = some decl) :
    ∃ name, index.get? name = some decl := by
  obtain ⟨candidate, -, hdecl⟩ := Option.bind_eq_some_iff.1 h
  exact ⟨candidate.fqn, (Option.filter_eq_some_iff.1 hdecl).1⟩

theorem accessorKey_error {e : Error} (h : Facade.accessorKey index decl = .error e) :
    e = .accessorUnresolved decl.fqn := by
  unfold Facade.accessorKey at h
  dsimp only at h
  split at h
  · cases h
  · exact (Except.error.inj h).symm

/-- A facade is forwarded or has a fault. -/
theorem forwards_or_fault (c : Config) (r : Registry) (index : ClassIndex) (decl : ClassDecl) :
    (∃ s, Forwards c r index decl s) ∨ ∃ e, Fault c r index decl e := by
  cases hkey : Facade.accessorKey index decl with
  | error e => exact Or.inr ⟨_, .accessor fun key h => by rw [hkey] at h; cases h⟩
  | ok key =>
    cases hservice : service? c r index key with
    | none => exact Or.inr ⟨_, .service hkey hservice⟩
    | some cls =>
      cases hcls : index.get? cls with
      | none => exact Or.inr ⟨_, .cls hkey hservice hcls⟩
      | some service =>
        by_cases hend : DefaultsEnd index service.fqn
        · exact Or.inl ⟨_, .via hkey hservice hcls hend⟩
        · exact Or.inr ⟨_, .endless hkey hservice hcls hend⟩

theorem Forwards.cls_eq {s : FacadeSummary} (h : Forwards c r index decl s) : s.cls = decl.fqn := by
  cases h
  rfl

theorem Forwards.service {s : FacadeSummary} (h : Forwards c r index decl s) :
    ∃ cls service, index.get? cls = some service ∧ s.service = service.fqn := by
  cases h with
  | via _ _ hcls _ => exact ⟨_, _, hcls, rfl⟩

/-- What is forwarded has no fault. -/
theorem Fault.not_forwards {e : Error} {s : FacadeSummary} (hf : Fault c r index decl e)
    (hs : Forwards c r index decl s) : False := by
  obtain ⟨hkey, hservice, hcls, hend⟩ := hs
  cases hf with
  | accessor h => exact h _ hkey
  | service hkey' h =>
    rw [hkey, Except.ok.injEq] at hkey'
    rw [← hkey', hservice] at h
    cases h
  | cls hkey' hservice' h =>
    rw [hkey, Except.ok.injEq] at hkey'
    rw [← hkey', hservice, Option.some.injEq] at hservice'
    rw [← hservice', hcls] at h
    cases h
  | endless hkey' hservice' hcls' h =>
    rw [hkey, Except.ok.injEq] at hkey'
    rw [← hkey', hservice, Option.some.injEq] at hservice'
    rw [← hservice', hcls, Option.some.injEq] at hcls'
    exact h (hcls' ▸ hend)

/-- A stub has its texts exactly if the defaults that it repeats come to an end. -/
theorem hasTexts_iff {service : String} :
    StubClass.hasTexts service index = true ↔ DefaultsEnd index service := by
  simp only [StubClass.hasTexts, List.all_eq_true, DefaultsEnd, Export.text?_isSome_iff_ends]

theorem itemOfFile_none (h : facadeOf? c index f = none) : itemOfFile c r index f = .ok none := by
  unfold facadeOf? at h
  unfold itemOfFile
  cases hc : f.candidate? with
  | none => rfl
  | some candidate =>
    rw [hc, Option.bind_some] at h
    simp only [Facade.ofCandidate, Facade.eligible?, h]
    rfl

theorem itemOfFile_some (h : facadeOf? c index f = some decl) :
    itemOfFile c r index f = (Facade.accessorKey index decl).bind fun key =>
      (itemOf c r index ⟨decl.fqn, decl.namespaceName.getD "", decl.name, key, decl.path⟩).map some := by
  unfold facadeOf? at h
  unfold itemOfFile
  cases hc : f.candidate? with
  | none => rw [hc] at h; cases h
  | some candidate =>
    rw [hc, Option.bind_some] at h
    simp only [Facade.ofCandidate, Facade.eligible?, h]
    cases Facade.accessorKey index decl with
    | error e => rfl
    | ok key =>
      simp only [Except.map, Except.bind, bind]
      cases itemOf c r index ⟨decl.fqn, decl.namespaceName.getD "", decl.name, key, decl.path⟩ <;> rfl

theorem itemOfFile_error {e : Error} (h : facadeOf? c index f = some decl)
    (hf : Fault c r index decl e) : itemOfFile c r index f = .error e := by
  rw [itemOfFile_some h]
  cases hf with
  | accessor hnone =>
    cases hkey : Facade.accessorKey index decl with
    | ok key => exact absurd hkey (hnone key)
    | error e => rw [accessorKey_error hkey]; rfl
  | service hkey hservice => simp [hkey, itemOf, hservice, Except.bind, Except.map]
  | cls hkey hservice hcls => simp [hkey, itemOf, hservice, hcls, Except.bind, Except.map]
  | endless hkey hservice hcls hend =>
    rw [← hasTexts_iff, Bool.not_eq_true] at hend
    simp [hkey, itemOf, hservice, hcls, hend, Except.bind, Except.map]

/-- The stub of a forwarded facade is that of its service, under its own name. -/
theorem itemOfFile_forwards {s : FacadeSummary} (h : facadeOf? c index f = some decl)
    (hs : Forwards c r index decl s) : itemOfFile c r index f = .ok (some
      ⟨StubClass.build (decl.namespaceName.getD "") decl.name s.service index, s⟩) := by
  obtain ⟨hkey, hservice, hcls, hend⟩ := hs
  rw [itemOfFile_some h]
  simp [hkey, itemOf, hservice, hcls, hasTexts_iff.2 hend, Except.bind, Except.map, StubClass.build]

/-- The loop over the files: all facades are forwarded, or it ends with the first fault. -/
theorem itemsUntilError_cases (c : Config) (r : Registry) (index : ClassIndex) :
    ∀ files : List SourceFile,
    ((itemsUntilError c r index files).2 = none ∧ List.Forall₂ (fun decl item =>
        Forwards c r index decl item.summary ∧ item.stub =
          StubClass.build (decl.namespaceName.getD "") decl.name item.summary.service index)
      (files.filterMap (facadeOf? c index)) (itemsUntilError c r index files).1) ∨
    ∃ e, (itemsUntilError c r index files).2 = some e ∧ FirstFault c r index files e
  | [] => Or.inl ⟨rfl, .nil⟩
  | f :: rest => by
    -- A file in front changes neither which fault is the first nor what is before it, if it has none.
    have lift : (∀ decl, facadeOf? c index f = some decl → ∃ s, Forwards c r index decl s) →
        ∀ e, FirstFault c r index rest e → FirstFault c r index (f :: rest) e := by
      rintro hf e ⟨before, g, after, decl, rfl, hg, hfault, hbefore⟩
      refine ⟨f :: before, g, after, decl, rfl, hg, hfault, fun x hx => ?_⟩
      rcases List.mem_cons.mp hx with rfl | hx
      · exact hf
      · exact hbefore x hx
    have ih := itemsUntilError_cases c r index rest
    cases hd : facadeOf? c index f with
    | none =>
      simp only [itemsUntilError, itemOfFile_none hd, List.filterMap_cons, hd]
      refine ih.imp_right fun ⟨e, he, hfirst⟩ => ⟨e, he, lift (fun decl h => ?_) e hfirst⟩
      rw [hd] at h
      cases h
    | some decl =>
      rcases forwards_or_fault c r index decl with ⟨s, hs⟩ | ⟨e, hfault⟩
      · simp only [itemsUntilError, itemOfFile_forwards hd hs, List.filterMap_cons, hd]
        refine ih.imp (fun ⟨hnone, hall⟩ => ⟨hnone, .cons ⟨hs, rfl⟩ hall⟩)
          fun ⟨e, he, hfirst⟩ => ⟨e, he, lift (fun decl' h => ?_) e hfirst⟩
        rw [hd, Option.some.injEq] at h
        exact ⟨s, h ▸ hs⟩
      · refine Or.inr ⟨e, ?_, [], f, rest, decl, rfl, hd, hfault, by simp⟩
        simp only [itemsUntilError, itemOfFile_error hd hfault]

/-- Where a fault is the first one, not every facade is forwarded. -/
theorem FirstFault.not_all {files : List SourceFile} {e : Error} (h : FirstFault c r index files e) :
    ¬ ∀ f ∈ files, ∀ decl, facadeOf? c index f = some decl → ∃ s, Forwards c r index decl s := by
  intro hall
  obtain ⟨before, f, after, decl, rfl, hd, hfault, -⟩ := h
  obtain ⟨s, hs⟩ := hall f (by simp) decl hd
  exact hfault.not_forwards hs

end Items

/-! ## Runs -/

section Runs

variable {c : Config} {r : Registry} {d : Disk} {files : List SourceFile} {index : ClassIndex}

/-- The plan of scanned files whose facades are all forwarded. -/
def planOf (c : Config) (r : Registry) (files : List SourceFile) (items : List Item) : Plan where
  report :=
    { output := Path.join (root c r) c.output
      filesScanned := files.length
      candidates := (files.filter fun f => f.candidate?.isSome).length
      facades := items.map (·.summary) }
  stubs := ordered c.grouping (items.map (·.stub))

theorem plan_error [Recovery] {e : Error} (hg : gather c r d = .ok (files, index))
    (he : (itemsUntilError c r index files).2 = some e) : (plan c r d).2 = .error e := by
  simp only [plan, hg, he]

theorem plan_ok [Recovery] (hg : gather c r d = .ok (files, index))
    (he : (itemsUntilError c r index files).2 = none) :
    (plan c r d).2 = .ok (planOf c r files (itemsUntilError c r index files).1) := by
  simp only [plan, hg, he, planOf]

theorem run_result_error [Recovery] {e : Error} (h : (plan c r d).2 = .error e) :
    (run c r d).result = .error e := by
  unfold run
  split
  · rename_i hp
    rw [hp] at h
    cases h
    rfl
  · rename_i hp
    rw [hp] at h
    cases h

theorem run_result_ok [Recovery] {p : Plan} {d' : Disk} (h : (plan c r d).2 = .ok p)
    (hw : (writeHelper c p.report.output p.stubs).run.run d = (.ok (), d')) :
    (run c r d).result = .ok p.report ∧ (run c r d).disk = d' := by
  unfold run
  split
  · rename_i hp
    rw [hp] at h
    cases h
  · rename_i hp
    rw [hp] at h
    cases h
    rw [hw]
    exact ⟨rfl, rfl⟩

/-- A run that succeeds has made its plan and has written it. -/
theorem plan_of_run_ok [Recovery] {report : Report} (h : (run c r d).result = .ok report) :
    ∃ p, (plan c r d).2 = .ok p ∧ p.report = report ∧
      (writeHelper c p.report.output p.stubs).run.run d = (.ok (), (run c r d).disk) := by
  unfold run at h ⊢
  split at h
  · cases h
  · rename_i omitted p hp
    split at h
    · rename_i d' hw
      exact ⟨p, by rw [hp], Except.ok.inj h, hw⟩
    · cases h

/-- A plan is that of the files that were gathered. -/
theorem gather_of_plan_ok [Recovery] {p : Plan} (h : (plan c r d).2 = .ok p) :
    ∃ files index, gather c r d = .ok (files, index) ∧ (itemsUntilError c r index files).2 = none ∧
      p = planOf c r files (itemsUntilError c r index files).1 := by
  cases hg : gather c r d with
  | error e => simp [plan, hg] at h
  | ok found =>
    obtain ⟨files, index⟩ := found
    refine ⟨files, index, rfl, ?_⟩
    cases he : (itemsUntilError c r index files).2 with
    | some e => rw [plan_error hg he] at h; cases h
    | none =>
      rw [plan_ok hg he] at h
      cases h
      exact ⟨rfl, rfl⟩

/-- When a run succeeds and what it reports, where its directories can be walked and its helper file
can be written.

If an import has its braces crossed there is no index, and the run says so. Otherwise it succeeds
exactly if every scanned file that is a facade has an accessor that is a key, for which the registry
has a class that is indexed and whose defaults come to an end. The report then counts the scanned
files and those with a candidate, and lists the facades in the order of the scan, each with its key,
its service as it is declared, and the number of methods that can be forwarded. If it does not
succeed, it ends with the first fault in the order of the scan. -/
theorem run_decides [Recovery] {more : List (List SourceFile)} (hscans : Scans c r d files more)
    (hwrite : ∀ p, (plan c r d).2 = .ok p →
      ∃ d', (writeHelper c p.report.output p.stubs).run.run d = (.ok (), d')) :
    (indexOf? c r files more = none → (run c r d).result = .error .crossedBraces) ∧
    ∀ index, indexOf? c r files more = some index →
      ((∃ report, (run c r d).result = .ok report) ↔
        ∀ f ∈ files, ∀ decl, facadeOf? c index f = some decl → ∃ key cls service,
          Facade.accessorKey index decl = .ok key ∧ service? c r index key = some cls ∧
            index.get? cls = some service ∧ DefaultsEnd index service.fqn) ∧
      (∀ report, (run c r d).result = .ok report →
        report.filesScanned = files.length ∧
        report.candidates = files.countP (fun f => f.candidate?.isSome) ∧
        List.Forall₂ (Forwards c r index) (files.filterMap (facadeOf? c index)) report.facades) ∧
      (∀ e, (run c r d).result = .error e → FirstFault c r index files e) := by
  refine ⟨fun hnone => ?_, fun index hindex => ?_⟩
  · refine run_result_error ?_
    simp only [plan, gather_eq_error hscans hnone]
  have hg := gather_eq_ok hscans hindex
  have hforwards : ∀ decl, (∃ s, Forwards c r index decl s) ↔ ∃ key cls service,
      Facade.accessorKey index decl = .ok key ∧ service? c r index key = some cls ∧
        index.get? cls = some service ∧ DefaultsEnd index service.fqn := by
    intro decl
    constructor
    · rintro ⟨_, hkey, hservice, hcls, hend⟩
      exact ⟨_, _, _, hkey, hservice, hcls, hend⟩
    · rintro ⟨_, _, _, hkey, hservice, hcls, hend⟩
      exact ⟨_, .via hkey hservice hcls hend⟩
  simp only [← hforwards]
  rcases itemsUntilError_cases c r index files with ⟨hnone, hall⟩ | ⟨e, he, hfirst⟩
  · -- No fault: the plan is made and written.
    have hp := plan_ok hg hnone
    obtain ⟨d', hw⟩ := hwrite _ hp
    have hok := (run_result_ok hp hw).1
    refine ⟨⟨fun _ f hf decl hd => ?_, fun _ => ⟨_, hok⟩⟩, fun report hr => ?_, fun e he => ?_⟩
    · obtain ⟨item, -, hforwards, -⟩ := exists_mem_of_forall₂ hall.flip decl
        (List.mem_filterMap.mpr ⟨f, hf, hd⟩)
      exact ⟨_, hforwards⟩
    · rw [hok] at hr
      cases hr
      refine ⟨rfl, List.countP_eq_length_filter.symm, ?_⟩
      exact List.forall₂_map_right_iff.mpr (hall.imp fun _ _ h => h.1)
    · rw [hok] at he
      cases he
  · -- A fault: the plan ends with it.
    have herr := run_result_error (plan_error hg he)
    refine ⟨⟨fun ⟨report, hr⟩ => ?_, fun hall => (hfirst.not_all hall).elim⟩, fun report hr => ?_,
      fun e' he' => ?_⟩
    · rw [herr] at hr
      cases hr
    · rw [herr] at hr
      cases hr
    · rw [herr] at he'
      cases he'
      exact hfirst

end Runs

/-! ### A project with one class -/

/-- A project with one facade, which is its own service. -/
def soloDisk : Disk where
  top := .dir [("src", .dir [("A.php", .file (Utf8.bytesOf
    ("<?php interface M \x7b\x7d class A implements M \x7b " ++
      "static function getFacadeAccessor() \x7b return 'A'; \x7d function f() \x7b\x7d \x7d")))])]

def soloConfig : Config where
  markers := ["M"]

/-! ### A shop -/

/-- A source file with one facade. -/
def shopFront (ns name key : String) : Bytes :=
  ["<?php namespace ", ns, "; class ", name, " implements \\M \x7b ", "static function ",
    "getFacadeAccessor() ", "\x7b return '", key, "'; \x7d \x7d"].flatMap Utf8.bytesOf

/-- The tree of a source file with one facade, where the namespace has one letter, the class four and
the key three. -/
def shopFrontTree : Node :=
  .mk .program 0 101
    [.mk .namespaceDefinition 6 18 [.mk .namespaceName 16 17 []],
     .mk (.declaration .cls) 19 101
      [.mk .name 25 29 [], .mk .interfaceClause 30 43 [.mk .qualifiedName 41 43 []],
       .mk .memberList 44 101
        [.mk .method 46 99
          [.mk .staticModifier 46 52 [], .mk .name 62 79 [], .mk .parameters 79 81 [],
           .mk .block 82 99 [.mk .returnStatement 84 97 [.mk .plainString 91 96 []]]]]]]

/-- What a source file with one facade declares. -/
def shopFacade (ns name key path : String) : FileFacts where
  path := path
  namespaceName := some ns
  classes :=
    [{ name
       namespaceName := some ns
       implementsNames := ["M"]
       methods :=
        [{ name := "getFacadeAccessor", isStatic := true, constantReturn := some (.str key) }]
       path }]

/-- A source file with two services. The second one has the method of the first one, too. -/
def shopServices : Bytes :=
  ["<?php class Svc \x7b ", "function f(int $x, ", "?self $y = null, ", "$z = FOO * 2): ?self ", "\x7b\x7d \x7d ",
    "class Old extends Svc \x7b ", "function g(string ...$s) ", "\x7b\x7d \x7d"].flatMap Utf8.bytesOf

def shopServicesTree : Node :=
  .mk .program 0 133
    [.mk (.declaration .cls) 6 79
      [.mk .name 12 15 [],
       .mk .memberList 16 79
        [.mk .method 18 77
          [.mk .name 27 28 [],
           .mk .parameters 28 67
            [.mk .simpleParameter 29 35 [.mk .primitiveType 29 32 [], .mk .dollarName 33 35 []],
             .mk .simpleParameter 37 52
              [.mk .optionalType 37 42 [.mk .namedType 38 42 [.mk .name 38 42 []]],
               .mk .dollarName 43 45 [], .mk .defaultValue 48 52 [.mk .nullLiteral 48 52 []]],
             .mk .simpleParameter 54 66
              [.mk .dollarName 54 56 [],
               .mk .defaultValue 59 66
                [.mk .binaryOperation 59 66
                  [.mk .name 59 62 [], .mk .operator 63 64 [], .mk .integerLiteral 65 66 []]]]],
           .mk .optionalType 69 74 [.mk .namedType 70 74 [.mk .name 70 74 []]],
           .mk .block 75 77 []]]],
     .mk (.declaration .cls) 80 133
      [.mk .name 86 89 [], .mk .baseClause 90 101 [.mk .name 98 101 []],
       .mk .memberList 102 133
        [.mk .method 104 131
          [.mk .name 113 114 [],
           .mk .parameters 114 128
            [.mk .variadicParameter 115 127
              [.mk .primitiveType 115 121 [], .mk .dollarName 125 127 []]],
           .mk .block 129 131 []]]]]

def shopF : Method where
  name := "f"
  params :=
    [{ name := "x", typeHint := some (.builtin "int") },
     { name := "y", typeHint := some (.nullable (.builtin "self")), default := some .null },
     { name := "z", default := some (.binary "*" (.expr "FOO") (.int 2)) }]
  returnType := some (.nullable (.builtin "self"))

def shopG : Method where
  name := "g"
  params := [{ name := "s", typeHint := some (.builtin "string"), variadic := true }]

/-- The source files of a shop, in the order of the scan. The last one declares the class of the first
one again. -/
def shopFiles : List SourceFile :=
  [⟨"./src/Cart.php", ["Cart.php"], shopFront "A" "Cart" "Svc"⟩,
   ⟨"./src/Desk.php", ["Desk.php"], shopFront "B" "Desk" "Old"⟩,
   ⟨"./src/Echo.php", ["Echo.php"], shopFront "A" "Cart" "Old"⟩]

def shopMarkerTree : Node :=
  .mk .program 0 20 [.mk (.declaration .interface) 6 20 [.mk .name 16 17 [], .mk .memberList 18 20 []]]

/-- The files of the shop that only add classes to the index. -/
def shopTypes : List SourceFile :=
  [⟨"./lib/M.php", ["M.php"], Utf8.bytesOf "<?php interface M \x7b\x7d"⟩,
   ⟨"./lib/Svc.php", ["Svc.php"], shopServices⟩]

/-- A directory with files. -/
def folder (files : List SourceFile) : Entry :=
  .dir (files.map fun f => (joined "/" f.names, .file f.content))

def shopDisk : Disk where
  top := .dir [("src", folder shopFiles), ("lib", folder shopTypes)]

/-- The helper file of the shop is written into a directory that is indexed. -/
def shopConfig : Config where
  markers := ["M"]
  output := "lib/helper.php"
  indexPaths := ["lib"]

/-- All that the files of the shop declare, in the order in which they are read. -/
def shopFacts : List FileFacts :=
  [shopFacade "A" "Cart" "Svc" "src/Cart.php", shopFacade "B" "Desk" "Old" "src/Desk.php",
   shopFacade "A" "Cart" "Old" "src/Echo.php",
   { path := "lib/M.php", classes := [{ kind := .interface, name := "M", path := "lib/M.php" }] },
   { path := "lib/Svc.php"
     classes :=
      [{ name := "Svc", methods := [shopF], path := "lib/Svc.php" },
       { name := "Old", extendsNames := ["Svc"], methods := [shopG], path := "lib/Svc.php" }] }]

/-- The index of the shop. It has the class that is declared twice as it was declared first. -/
def shopIndex : ClassIndex := shopFacts.foldl ClassIndex.addFile {}

theorem fileFacts?_of_parse [Recovery] {path : String} {source : Bytes} {tree : Node} {facts : FileFacts}
    (h : parse? source = some tree) (hfacts : treeFacts? path source tree = some facts) :
    fileFacts? path source = some facts := by
  rw [fileFacts?, h]
  exact hfacts

set_option maxRecDepth 4000 in
theorem shop_trees : List.Forall₂ (fun f tree => parse? f.content = some tree) (shopFiles ++ shopTypes)
    [shopFrontTree, shopFrontTree, shopFrontTree, shopMarkerTree, shopServicesTree] := by
  refine .cons ?_ (.cons ?_ (.cons ?_ (.cons ?_ (.cons ?_ .nil)))) <;> decide +kernel

set_option maxRecDepth 4000 in
theorem shop_facts [Recovery] : List.Forall₂ (fun f x =>
    fileFacts? ((Path.stripPrefix? f.path ".").getD f.path) f.content = some x)
      (shopFiles ++ shopTypes) shopFacts := by
  have htrees := shop_trees
  simp only [shopFiles, shopTypes, List.cons_append, List.nil_append, List.forall₂_cons] at htrees
  obtain ⟨hcart, hdesk, hecho, hmarker, hservices, -⟩ := htrees
  exact .cons (fileFacts?_of_parse hcart (by rfl)) (.cons (fileFacts?_of_parse hdesk (by rfl))
    (.cons (fileFacts?_of_parse hecho (by rfl)) (.cons (fileFacts?_of_parse hmarker (by rfl))
      (.cons (fileFacts?_of_parse hservices (by rfl)) .nil))))

theorem shop_index [Recovery] : indexOf? shopConfig {} shopFiles [shopTypes] = some shopIndex := by
  have hroot : root shopConfig {} = "." := by decide
  rw [indexOf?, hroot]
  exact ClassIndex.addSources?_of_facts shop_facts {}

/-- A directory whose files stand by name is scanned as it stands. -/
theorem scanAt_folder {d : Disk} {path : String} {files : List SourceFile}
    (hat : d.entryAt path = .ok (folder files))
    (hsorted : (files.map fun f => joined "/" f.names).Pairwise (· ≤ ·))
    (hfiles : files.all (fun f => f.names == [joined "/" f.names] &&
      f.path == Path.joinAll path f.names && takesUp path [] f.names) = true) :
    scanAt d path [] = .ok files := by
  obtain ⟨place, hl⟩ := Disk.entryAt_eq_ok_iff.1 hat
  have hlisted : scanned (folder files) = files.map fun f => ([joined "/" f.names], f.content) := by
    have h := @Entry.filesBelow_of_files (fun n => !isHidden n)
      (files.map fun f => (joined "/" f.names, f.content)) (List.pairwise_map.2 (List.pairwise_map.1 hsorted))
    rw [List.map_map, List.map_map] at h
    exact h
  refine scanAt_eq_ok_iff.2 (scan_eq_ok_iff.2 ⟨place, _, hl, ?_⟩)
  rw [hlisted]
  clear hat hsorted hl hlisted
  induction files with
  | nil => rfl
  | cons f files ih =>
    simp only [List.all_cons, Bool.and_eq_true, beq_iff_eq] at hfiles
    obtain ⟨⟨⟨hnames, hpath⟩, htakes⟩, hrest⟩ := hfiles
    rw [List.map_cons, List.filter_cons_of_pos (by rw [← hnames]; exact htakes), List.map_cons,
      ← ih (by simpa using hrest)]
    simp only [← hnames, ← hpath]

theorem shop_scans {c : Config} {r : Registry} (hroot : root c r = ".") (hsources : c.sourceDir = "src")
    (hindexed : c.indexPaths = ["lib"]) (hexcluded : c.excludedPaths = []) :
    Scans c r shopDisk shopFiles [shopTypes] where
  sources := by
    rw [hroot, hsources, hexcluded]
    exact ⟨[], rfl, scanAt_folder (by rfl) (by decide +kernel) (by decide +kernel)⟩
  indexed := by
    rw [hroot, hindexed]
    exact .cons (scanAt_folder (by rfl) (by decide +kernel) (by decide +kernel)) .nil

theorem shop_candidates : shopFiles.map SourceFile.candidate? =
    [some ⟨some "A", "Cart"⟩, some ⟨some "B", "Desk"⟩, some ⟨some "A", "Cart"⟩] := by decide +kernel

/-- What the shop reports. The facade that two files declare is there twice. -/
def shopFacades : List FacadeSummary :=
  [⟨"A\\Cart", "Svc", "Svc", 1⟩, ⟨"B\\Desk", "Old", "Old", 2⟩, ⟨"A\\Cart", "Svc", "Svc", 1⟩]

theorem shop_items : ((itemsUntilError shopConfig {} shopIndex shopFiles).1.map (·.summary),
    (itemsUntilError shopConfig {} shopIndex shopFiles).2) = (shopFacades, none) := by
  have hcandidates := shop_candidates
  simp only [shopFiles, List.map_cons, List.map_nil, List.cons.injEq, and_true] at hcandidates
  obtain ⟨hcart, hdesk, hagain⟩ := hcandidates
  simp only [shopFiles, itemsUntilError, itemOfFile, hcart, hdesk, hagain]
  decide +kernel

/-- Without autowiring a registry that does not know one of the keys stops the shop at that facade, behind
one that is forwarded. -/
theorem shop_unwired : (itemsUntilError { shopConfig with autowire := false }
    { services := [("Svc", "Svc")] } shopIndex shopFiles).2 = some (.serviceNotFound "Old") := by
  have hcandidates := shop_candidates
  simp only [shopFiles, List.map_cons, List.map_nil, List.cons.injEq, and_true] at hcandidates
  obtain ⟨hcart, hdesk, hagain⟩ := hcandidates
  simp only [shopFiles, itemsUntilError, itemOfFile, hcart, hdesk, hagain]
  decide +kernel

theorem shop_writes (stubs : List StubClass) : ∃ d',
    (writeHelper shopConfig "./lib/helper.php" stubs).run.run shopDisk = (.ok (), d') := ⟨_, rfl⟩

theorem shop_gather [Recovery] : gather shopConfig {} shopDisk = .ok (shopFiles, shopIndex) :=
  gather_eq_ok (shop_scans (by decide) rfl rfl rfl) shop_index

/-- The run of the shop succeeds. -/
theorem shop_report [Recovery] : ∃ report, (run shopConfig {} shopDisk).result = .ok report ∧
    report.output = "./lib/helper.php" ∧ report.filesScanned = 3 ∧ report.candidates = 3 ∧
    report.facades = shopFacades := by
  obtain ⟨hsummaries, hnone⟩ := Prod.mk.inj shop_items
  have houtput : Path.join (root shopConfig {}) shopConfig.output = "./lib/helper.php" := by decide
  have hplan := plan_ok shop_gather hnone
  obtain ⟨d', hwrite⟩ := shop_writes (planOf shopConfig {} shopFiles
    (itemsUntilError shopConfig {} shopIndex shopFiles).1).stubs
  refine ⟨_, (run_result_ok hplan (houtput ▸ hwrite)).1, houtput, rfl, ?_, hsummaries⟩
  have hcounted : (shopFiles.filter fun f => f.candidate?.isSome).length =
      ((shopFiles.map SourceFile.candidate?).filter Option.isSome).length := by
    rw [List.filter_map, List.length_map]
    rfl
  rw [planOf, hcounted, shop_candidates]
  rfl

/-- The shop has a facade twice, since two files declare it. If no class is known for the key of the
second file, the run stops there, behind a facade that is forwarded. -/
theorem run_decides_shop : Scans shopConfig {} shopDisk shopFiles [shopTypes] ∧
    @indexOf? .nothing shopConfig {} shopFiles [shopTypes] = some shopIndex ∧
    (∃ report, (@run .nothing shopConfig {} shopDisk).result = .ok report ∧
      report.filesScanned = 3 ∧ report.candidates = 3 ∧ List.Forall₂ (Forwards shopConfig {} shopIndex)
        (shopFiles.filterMap (facadeOf? shopConfig shopIndex)) shopFacades) ∧
    (@run .nothing { shopConfig with autowire := false } { services := [("Svc", "Svc")] } shopDisk).result =
      .error (.serviceNotFound "Old") ∧
    FirstFault { shopConfig with autowire := false } { services := [("Svc", "Svc")] } shopIndex shopFiles
      (.serviceNotFound "Old") := by
  let recovery : Recovery := .nothing
  have hscans : Scans shopConfig {} shopDisk shopFiles [shopTypes] := shop_scans (by decide) rfl rfl rfl
  have hscans' : Scans { shopConfig with autowire := false } { services := [("Svc", "Svc")] } shopDisk
      shopFiles [shopTypes] := shop_scans (by decide) rfl rfl rfl
  have hwrite : ∀ {c : Config} {r : Registry}, Path.join (root c r) c.output = "./lib/helper.php" →
      c.atomicWrite = true → ∀ p, (plan c r shopDisk).2 = .ok p →
        ∃ d', (writeHelper c p.report.output p.stubs).run.run shopDisk = (.ok (), d') := by
    intro c r houtput hatomic p hp
    obtain ⟨_, _, -, -, rfl⟩ := gather_of_plan_ok hp
    obtain ⟨d', hrun⟩ := shop_writes (planOf c r _ _).stubs
    refine ⟨d', ?_⟩
    rw [← hrun, planOf, houtput]
    simp only [writeHelper, hatomic]
    rfl
  obtain ⟨report, hreport, -, -, hcandidates, hfacades⟩ := shop_report
  have hdecides := (run_decides hscans (hwrite (by decide) rfl)).2 shopIndex shop_index
  have hdecides' := (run_decides hscans' (hwrite (by decide) rfl)).2 shopIndex shop_index
  obtain ⟨hscanned, -, hforwards⟩ := hdecides.2.1 report hreport
  have herror := run_result_error (plan_error (gather_eq_ok hscans' shop_index) shop_unwired)
  exact ⟨hscans, shop_index, ⟨report, hreport, hscanned, hcandidates, hfacades ▸ hforwards⟩, herror,
    hdecides'.2.2 _ herror⟩

end Generation

end FacadeStubs
