import FacadeStubs.Proofs.Run.Decision

/-!
# Autowiring only adds services

A registry is set up step by step. With autowiring a key that the registry does not know may still name
a concrete class of the index, and stands for it then. So autowiring only adds: a key that has a class
keeps it, and a run that succeeds without autowiring is the same run with it.

* `service?_setUp_iff`: a key has the class that it was last set to;
* `wiredService?_cases`: where the class of a key comes from;
* `run_wired`: a run that needs no autowiring does not notice it;
* `service?_of_run_unknown`: only a class that was set for a key can be missing from the index;
* `autowiring_conservative`: all of it.
-/
namespace FacadeStubs

namespace Registry

/-- A step in which a registry is set up. -/
inductive Setting where
  | service (id cls : String)
  | parameter (name value : String)
  | projectDir (dir : String)

/-- A registry after one step. -/
def set (r : Registry) : Setting → Registry
  | .service id cls => r.addService id cls
  | .parameter name value => r.setParameter name value
  | .projectDir dir => r.setParameter projectDirKey dir

/-- The registry that some steps set up from nothing. -/
def setUp (steps : List Setting) : Registry := steps.foldl set {}

/-- The steps in which a registry is set up from a config. -/
def settings (c : Config) : List Setting :=
  c.services.map (fun s => .service s.1 s.2) ++ c.parameters.map (fun p => .parameter p.1 p.2) ++
    [.projectDir c.directory]

theorem ofConfig_eq_setUp (c : Config) : ofConfig c = setUp (settings c) := by
  simp [ofConfig, setUp, settings, List.foldl_map, set]

/-! ## Look-ups -/

theorem lookup_setKey (key value id : String) : ∀ entries : List (String × String),
    (setKey key value entries).lookup id = if id == key then some value else entries.lookup id
  | [] => by
    rw [setKey, List.lookup_cons]
    cases id == key <;> rfl
  | (k, v) :: rest => by
    rw [setKey]
    split
    · rename_i hkey
      obtain rfl : key = k := by simpa using hkey
      rw [List.lookup_cons, List.lookup_cons]
      cases id == key <;> rfl
    · rename_i hkey
      split
      · rw [List.lookup_cons]
        cases id == key <;> rfl
      · rw [List.lookup_cons, List.lookup_cons, lookup_setKey key value id rest]
        by_cases h : id = key
        · subst h
          simp [eq_false_of_ne_true hkey]
        · simp [h]

theorem has_iff {r : Registry} {id : String} : r.has id = true ↔ ∃ cls, r.service? id = some cls := by
  unfold has service?
  induction r.services with
  | nil => simp
  | cons entry rest ih =>
    rw [List.any_cons, List.lookup_cons, Bool.or_eq_true, ih, BEq.comm]
    cases id == entry.1 <;> simp

theorem service?_set (r : Registry) (step : Setting) (id : String) :
    (∃ cls, step = .service id cls ∧ (r.set step).service? id = some (withoutRoot cls)) ∨
      ((∀ cls, step ≠ .service id cls) ∧ (r.set step).service? id = r.service? id) := by
  cases step with
  | service id' cls =>
    have hlookup : (r.set (.service id' cls)).service? id =
        if id == id' then some (withoutRoot cls) else r.service? id := lookup_setKey _ _ _ _
    by_cases h : id = id'
    · subst h
      exact .inl ⟨cls, rfl, by rw [hlookup, if_pos (beq_self_eq_true id)]⟩
    · refine .inr ⟨fun cls' heq => h ?_, by rw [hlookup, if_neg (by simpa using h)]⟩
      cases heq
      rfl
  | parameter name value => exact .inr ⟨fun _ => Setting.noConfusion, rfl⟩
  | projectDir dir => exact .inr ⟨fun _ => Setting.noConfusion, rfl⟩

/-- The class that steps set for a key: the last step for the key counts. -/
def LastSet (steps : List Setting) (id cls : String) : Prop :=
  ∃ before written after, steps = before ++ .service id written :: after ∧
    (∀ other, .service id other ∉ after) ∧ cls = withoutRoot written

theorem lastSet_cons {step : Setting} {steps : List Setting} {id cls : String} :
    LastSet (step :: steps) id cls ↔ LastSet steps id cls ∨
      (∀ other, .service id other ∉ steps) ∧
        ∃ written, step = .service id written ∧ cls = withoutRoot written := by
  constructor
  · rintro ⟨before, written, after, hsteps, hlast, rfl⟩
    cases before with
    | nil =>
      obtain ⟨rfl, rfl⟩ := List.cons.inj hsteps
      exact .inr ⟨hlast, written, rfl, rfl⟩
    | cons first before =>
      obtain ⟨rfl, rfl⟩ := List.cons.inj hsteps
      exact .inl ⟨before, written, after, rfl, hlast, rfl⟩
  · rintro (⟨before, written, after, rfl, hlast, rfl⟩ | ⟨hlast, written, rfl, rfl⟩)
    · exact ⟨step :: before, written, after, rfl, hlast, rfl⟩
    · exact ⟨[], written, steps, rfl, hlast, rfl⟩

/-- A key has the class that it was last set to, or else the one that it had before. -/
theorem service?_foldl_set {steps : List Setting} {r : Registry} {id cls : String} :
    (steps.foldl set r).service? id = some cls ↔
      LastSet steps id cls ∨ (∀ other, .service id other ∉ steps) ∧ r.service? id = some cls := by
  induction steps generalizing r with
  | nil =>
    constructor
    · exact fun h => .inr ⟨fun _ => List.not_mem_nil, h⟩
    · rintro (⟨before, written, after, h, -⟩ | ⟨-, h⟩)
      · simp at h
      · exact h
  | cons step steps ih =>
    rw [List.foldl_cons, ih, lastSet_cons, or_assoc]
    refine or_congr_right ?_
    rcases service?_set r step id with ⟨written, rfl, h⟩ | ⟨hother, h⟩
    · rw [or_iff_left fun hright => hright.1 written List.mem_cons_self]
      simp [h, eq_comm]
    · simp [h, hother, Ne.symm (hother _)]

theorem service?_setUp_iff {steps : List Setting} {id cls : String} :
    (setUp steps).service? id = some cls ↔ LastSet steps id cls := by
  rw [setUp, service?_foldl_set, or_iff_left]
  rintro ⟨-, h⟩
  cases h

/-! ## Autowiring -/

theorem wiredService?_of_service? {r : Registry} {id cls : String} (h : r.service? id = some cls)
    (index : ClassIndex) : r.wiredService? index id = some cls := by
  rw [wiredService?, h, Option.some_or]

/-- A class that a key names is found again by its full name. -/
theorem get?_of_autowired? {index : ClassIndex} {id cls : String} (h : autowired? index id = some cls) :
    ∃ decl, index.get? id = some decl ∧ decl.isInstantiable = true ∧ decl.fqn = cls ∧
      index.get? cls = some decl := by
  obtain ⟨decl, hdecl, rfl⟩ := Option.map_eq_some_iff.1 h
  obtain ⟨hget, hinst⟩ := Option.filter_eq_some_iff.1 hdecl
  refine ⟨decl, hget, hinst, rfl, ?_⟩
  rw [ClassIndex.get?_congr index (ClassIndex.classKey_of_get? hget)]
  exact hget

/-- A class was set for its key, or no class was and the key names it. -/
theorem wiredService?_cases {r : Registry} {index : ClassIndex} {id cls : String}
    (h : r.wiredService? index id = some cls) :
    r.service? id = some cls ∨ r.service? id = none ∧ autowired? index id = some cls := by
  rw [wiredService?] at h
  cases hservice : r.service? id with
  | some own =>
    rw [hservice, Option.some_or] at h
    exact .inl h
  | none =>
    rw [hservice, Option.none_or] at h
    exact .inr ⟨rfl, h⟩

theorem wiredHas_iff {r : Registry} {index : ClassIndex} {id : String} :
    r.wiredHas index id = true ↔ ∃ cls, r.wiredService? index id = some cls := by
  rw [wiredHas, Bool.or_eq_true, has_iff, ← Option.isSome_iff_exists, ← Option.isSome_iff_exists,
    wiredService?, Option.isSome_or, Bool.or_eq_true]

end Registry

namespace Generation

section

variable {c : Config} {r : Registry} {d : Disk} {index : ClassIndex}

/-! ## Runs with and without autowiring -/

theorem itemOf_wired {f : Facade} {item : Item}
    (h : itemOf { c with autowire := false } r index f = .ok item) :
    itemOf { c with autowire := true } r index f = .ok item := by
  have hservice : service? { c with autowire := false } r index f.accessor = r.service? f.accessor := rfl
  have hwired : service? { c with autowire := true } r index f.accessor =
      r.wiredService? index f.accessor := rfl
  rw [itemOf, hservice] at h
  cases hcls : r.service? f.accessor with
  | none =>
    rw [hcls] at h
    cases h
  | some cls =>
    rw [hcls] at h
    rw [itemOf, hwired, Registry.wiredService?_of_service? hcls]
    exact h

theorem itemOfFile_wired {f : SourceFile} {item? : Option Item}
    (h : itemOfFile { c with autowire := false } r index f = .ok item?) :
    itemOfFile { c with autowire := true } r index f = .ok item? := by
  unfold itemOfFile at h ⊢
  cases hc : f.candidate? with
  | none => simpa only [hc] using h
  | some candidate =>
    simp only [hc, bind, Except.bind] at h ⊢
    cases hfacade : Facade.ofCandidate index c.markers candidate with
    | error e =>
      rw [hfacade] at h
      cases h
    | ok facade? =>
      rw [hfacade] at h
      cases facade? with
      | none => exact h
      | some facade =>
        dsimp only at h ⊢
        cases hitem : itemOf { c with autowire := false } r index facade with
        | error e =>
          rw [hitem] at h
          cases h
        | ok item =>
          rw [hitem] at h
          rw [itemOf_wired hitem]
          exact h

/-- Files whose facades need no autowiring do not notice it. -/
theorem itemsUntilError_wired : ∀ {files : List SourceFile},
    (itemsUntilError { c with autowire := false } r index files).2 = none →
    itemsUntilError { c with autowire := true } r index files =
      itemsUntilError { c with autowire := false } r index files
  | [], _ => rfl
  | f :: rest, h => by
    rw [itemsUntilError] at h ⊢
    rw [itemsUntilError]
    cases hfile : itemOfFile { c with autowire := false } r index f with
    | error e =>
      rw [hfile] at h
      cases h
    | ok item? =>
      rw [hfile] at h
      rw [itemOfFile_wired hfile]
      cases item? with
      | none => exact itemsUntilError_wired h
      | some item =>
        dsimp only at h ⊢
        rw [itemsUntilError_wired h]

/-- A run that needs no autowiring does not notice it. -/
theorem run_wired [Recovery] {report : Report} (h : (run { c with autowire := false } r d).result = .ok report) :
    run { c with autowire := true } r d = run { c with autowire := false } r d := by
  obtain ⟨p, hplan, -, -⟩ := plan_of_run_ok h
  obtain ⟨files, index, hg, hnone, -⟩ := gather_of_plan_ok hplan
  have hg' : gather { c with autowire := true } r d = .ok (files, index) := hg
  have hsame : plan { c with autowire := true } r d = plan { c with autowire := false } r d := by
    simp only [plan, hg, hg', itemsUntilError_wired hnone]
    rfl
  simp only [run, hsame]
  rfl

/-! ## Classes that are not indexed -/

/-- Errors that say nothing about the class of a service. -/
def Unspecific (e : Error) : Prop := ∀ id cls, e ≠ .serviceClassUnknown id cls

theorem patterns_error {e : Error} : ∀ {ps : List String}, patterns ps = .error e → Unspecific e
  | [], h => by cases h
  | p :: rest, h => by
    rw [patterns] at h
    split at h
    · cases h
      exact fun _ _ h => by cases h
    · cases hrest : patterns rest with
      | error e' =>
        rw [hrest] at h
        cases h
        exact patterns_error hrest
      | ok tokens =>
        rw [hrest] at h
        cases h

theorem scanAt_error {path : String} {excluded : List (List Glob.Token)} {e : Error}
    (h : scanAt d path excluded = .error e) : Unspecific e := by
  unfold scanAt at h
  cases hscan : scan d path excluded with
  | ok files =>
    rw [hscan] at h
    cases h
  | error cause =>
    rw [hscan] at h
    cases h
    exact fun _ _ h => by cases h

theorem indexed_error [Recovery] {base : String} {files : List SourceFile} {e : Error}
    (h : indexed index base files = .error e) : Unspecific e := by
  unfold indexed at h
  split at h
  · cases h
  · cases h
    exact fun _ _ h => by cases h

theorem indexDirectories_error [Recovery] {base : String} {e : Error} : ∀ {dirs : List String} {i : ClassIndex},
    indexDirectories d base i dirs = .error e → Unspecific e
  | [], _, h => by cases h
  | dir :: dirs, i, h => by
    simp only [indexDirectories, bind, Except.bind] at h
    cases hscan : scanAt d (Path.join base dir) [] with
    | error e' =>
      rw [hscan] at h
      cases h
      exact scanAt_error hscan
    | ok files =>
      simp only [hscan] at h
      cases hindexed : indexed i base files with
      | error e' =>
        rw [hindexed] at h
        cases h
        exact indexed_error hindexed
      | ok j =>
        rw [hindexed] at h
        exact indexDirectories_error h

theorem gather_error [Recovery] {e : Error} (h : gather c r d = .error e) : Unspecific e := by
  simp only [gather, bind, Except.bind] at h
  cases hpatterns : patterns c.excludedPaths with
  | error e' =>
    rw [hpatterns] at h
    cases h
    exact patterns_error hpatterns
  | ok excluded =>
    simp only [hpatterns] at h
    cases hscan : scanAt d (Path.join (root c r) c.sourceDir) excluded with
    | error e' =>
      rw [hscan] at h
      cases h
      exact scanAt_error hscan
    | ok files =>
      simp only [hscan] at h
      cases hindexed : indexed {} (root c r) files with
      | error e' =>
        rw [hindexed] at h
        cases h
        exact indexed_error hindexed
      | ok i =>
        simp only [hindexed] at h
        cases hrest : indexDirectories d (root c r) i c.indexPaths with
        | error e' =>
          rw [hrest] at h
          cases h
          exact indexDirectories_error hrest
        | ok j =>
          rw [hrest] at h
          cases h

/-- The class that a key names is in the index, so a class that is not was set for its key. -/
theorem service?_of_unknown {id cls : String} (hservice : service? c r index id = some cls)
    (hcls : index.get? cls = none) : r.service? id = some cls := by
  unfold service? at hservice
  split at hservice
  · rcases Registry.wiredService?_cases hservice with h | ⟨-, h⟩
    · exact h
    · obtain ⟨decl, -, -, -, hget⟩ := Registry.get?_of_autowired? h
      rw [hget] at hcls
      cases hcls
  · exact hservice

/-- Only a class that was set for a key can be missing from the index. -/
theorem service?_of_run_unknown [Recovery] {id cls : String}
    (h : (run c r d).result = .error (.serviceClassUnknown id cls)) : r.service? id = some cls := by
  have hplan : (plan c r d).2 = .error (.serviceClassUnknown id cls) := by
    unfold run at h
    split at h
    · rename_i hp
      cases h
      rw [hp]
    · split at h
      · cases h
      · cases h
  unfold plan at hplan
  split at hplan
  · rename_i e hg
    cases hplan
    exact absurd rfl (gather_error hg id cls)
  · rename_i files index hg
    rcases itemsUntilError_cases c r index files with ⟨hnone, -⟩ | ⟨e, he, hfirst⟩
    · simp only [hnone] at hplan
      cases hplan
    · simp only [he] at hplan
      cases hplan
      obtain ⟨-, -, -, decl, -, -, hfault, -⟩ := hfirst
      cases hfault with
      | cls _ hservice hcls => exact service?_of_unknown hservice hcls

/-- Autowiring is a conservative extension of a registry, however the registry was set up.

With it or without it, a registry has a key exactly if it gives the key a class. A key that was set
keeps its class; a key that only autowiring knows stands for a concrete class that the index has under
the key as well as under the class's full name. So a run that succeeds without autowiring is the same
run with it: same report, same warnings, same files. And a run complains of a class that is not
indexed only if the class was set for its key. The registry of a config is set up by what the config
lists. -/
theorem autowiring_conservative [Recovery] (steps : List Registry.Setting) (c : Config) (d : Disk)
    (index : ClassIndex) :
    (∀ id, (Registry.setUp steps).has id = true ↔ ∃ cls, (Registry.setUp steps).service? id = some cls) ∧
    (∀ id, (Registry.setUp steps).wiredHas index id = true ↔
      ∃ cls, (Registry.setUp steps).wiredService? index id = some cls) ∧
    (∀ id cls, (Registry.setUp steps).service? id = some cls →
      (Registry.setUp steps).wiredService? index id = some cls) ∧
    (∀ id cls, (Registry.setUp steps).service? id = none →
      (Registry.setUp steps).wiredService? index id = some cls →
      ∃ decl, index.get? id = some decl ∧ index.get? cls = some decl ∧ decl.fqn = cls ∧
        decl.isInstantiable = true) ∧
    (∀ report, (run { c with autowire := false } (Registry.setUp steps) d).result = .ok report →
      run { c with autowire := true } (Registry.setUp steps) d =
        run { c with autowire := false } (Registry.setUp steps) d) ∧
    (∀ id cls, (run c (Registry.setUp steps) d).result = .error (.serviceClassUnknown id cls) →
      Registry.LastSet steps id cls) ∧
    Registry.ofConfig c = Registry.setUp (Registry.settings c) := by
  refine ⟨fun _ => Registry.has_iff, fun _ => Registry.wiredHas_iff,
    fun _ _ h => Registry.wiredService?_of_service? h index, fun id cls hnone hwired => ?_,
    fun _ h => run_wired h, fun id cls h => Registry.service?_setUp_iff.mp (service?_of_run_unknown h),
    Registry.ofConfig_eq_setUp c⟩
  rcases Registry.wiredService?_cases hwired with h | ⟨-, h⟩
  · rw [hnone] at h
    cases h
  · obtain ⟨decl, hid, hinst, hfqn, hcls⟩ := Registry.get?_of_autowired? h
    exact ⟨decl, hid, hcls, hfqn, hinst⟩

/-- A facade whose service is set needs no autowiring; if a class is set that is not there, the run
complains of it although the key names a class. -/
theorem autowiring_conservative_solo :
    (∃ report, (@run .nothing { soloConfig with autowire := true }
        (Registry.setUp [.service "A" "\\A"]) soloDisk).result = .ok report ∧
      report.facades = [⟨"A", "A", "A", 1⟩]) ∧
    Registry.LastSet [.service "A" "B"] "A" "B" := by
  let recovery : Recovery := .nothing
  have hfacades : (run { soloConfig with autowire := false } (Registry.setUp [.service "A" "\\A"])
      soloDisk).result.toOption.map (·.facades) = some [⟨"A", "A", "A", 1⟩] := by decide +kernel
  have hunknown : (run soloConfig (Registry.setUp [.service "A" "B"]) soloDisk).result =
      .error (.serviceClassUnknown "A" "B") := by decide +kernel
  refine ⟨?_, (autowiring_conservative [.service "A" "B"] soloConfig soloDisk {}).2.2.2.2.2.1 _ _ hunknown⟩
  cases h : (run { soloConfig with autowire := false } (Registry.setUp [.service "A" "\\A"])
      soloDisk).result with
  | error e =>
    rw [h] at hfacades
    cases hfacades
  | ok report =>
    rw [h] at hfacades
    have hsame := (autowiring_conservative [.service "A" "\\A"] soloConfig soloDisk {}).2.2.2.2.1 report h
    exact ⟨report, by rw [hsame, h], Option.some.inj hfacades⟩

end

end Generation

end FacadeStubs
