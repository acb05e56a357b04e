import FacadeStubs.Proofs.FailedRun
import FacadeStubs.Proofs.FileTree.SourceFiles
import FacadeStubs.Proofs.Run.Decision
import FacadeStubs.Proofs.Stub.Blocks
import FacadeStubs.Proofs.Text.Words

/-!
# The helper file of a run

What a run leaves in its helper file, and what a second run makes of it. A run writes the helper file
into a tree that it reads, so what the second run reads may be what the first one has written.

* `Written`: what the tree is like after a helper file has been written;
* `writeHelper_again`: a helper file that is there can be written once more;
* `facades_counted`: a class is declared once for each scanned file that seems to declare it.
-/
namespace FacadeStubs

open Entry FileAction

/-! ## After the helper file has been written -/

/-- A disk after a helper file has been written at a place: directories may be new, and all else is
as it was. -/
structure Written (d d' : Disk) (output : String) (p : Place) (content : Bytes) : Prop where
  here : d'.here = d.here
  directories : KeepsDirectories d.top d'.top
  kept : ∀ q s, q ≠ p → d.top.sightAt? q = some s → d'.top.sightAt? q = some s
  walks : ∀ enter keep, Blind enter keep p → SameWalk enter keep d.top d'.top
  target : ∃ place n, p = place ++ [n] ∧ Targets d' (Route.ofPath output) place n
  plain : (Route.ofPath output).ending = .plain
  stored : d'.top.sightAt? p = some (.content content)

theorem Written.locate {d d' : Disk} {output : String} {p : Place} {content : Bytes}
    (h : Written d d' output p content) :
    d'.locate (Route.ofPath output) = .ok (p, .file content) := by
  obtain ⟨place, n, rfl, ht⟩ := h.target
  exact ht.locate h.plain (sightAt?_eq_content.mp h.stored)

theorem Written.read {d d' : Disk} {output : String} {p : Place} {content : Bytes}
    (h : Written d d' output p content) : d'.read output = .ok content := by
  simp [Disk.read, Disk.entryAt, h.locate, Except.map]

namespace Generation

section

variable {c : Config} {r : Registry} {d d' : Disk} {output : String} {stubs : List StubClass}

theorem exists_written (h : (writeHelper c output stubs).run.run d = (.ok (), d')) :
    ∃ p, Written d d' output p (Utf8.bytesOf (helperText stubs)) := by
  obtain ⟨d₁, place, n, hwide, hhere, ht, hplain, hstores⟩ :=
    (writeHelper_ends c output stubs d).ok_of_run h
  exact ⟨place ++ [n],
    { here := hhere.trans hwide.here
      directories := fun q hq => hstores.keeps q (hwide.grown.kept q _ hq)
      kept := fun q s hq hs => (hstores.frame q hq).trans (hwide.grown.kept q s hs)
      walks := fun enter keep hblind =>
        (hwide.walks enter keep).trans (hstores.walks enter keep hblind)
      target := ⟨place, n, rfl, ht.kept hstores.keeps hhere⟩
      plain := hplain
      stored := hstores.written }⟩

/-- A helper file that is there can be written once more, and nothing changes but its content. -/
theorem writeHelper_again {d₀ : Disk} {p : Place} {old : Bytes} (h : Written d₀ d output p old) :
    ∃ d', (writeHelper c output stubs).run.run d = (.ok (), d') ∧ d'.here = d.here ∧
      Stores d.top d'.top p (Utf8.bytesOf (helperText stubs)) := by
  obtain ⟨place, n, rfl, ht⟩ := h.target
  obtain ⟨entries, hl⟩ := ht.located
  have hends : Ends (writeHelper c output stubs) d
      (fun _ d' => d'.here = d.here ∧ ∃ place n, Targets d (Route.ofPath output) place n ∧
        (Route.ofPath output).ending = .plain ∧
        Stores d.top d'.top (place ++ [n]) (Utf8.bytesOf (helperText stubs)))
      (fun _ _ => False) := by
    unfold writeHelper
    dsimp only
    rw [ends_bind]
    refine (createDirectories_present rfl hl).mono (fun _ d₁ h₁ => ?_) fun _ _ h => h
    subst h₁
    split
    · exact ((replace_ends _ _ _ _).and
        (replace_succeeds ht h.plain (by rw [h.stored]; simp))).mono
        (fun _ _ h => h.1) fun _ _ h => h.2
    · exact ((write_ends _ _ _).and
        (write_succeeds ht h.plain (by rw [h.stored]; simp))).mono
        (fun _ _ h => h.1) fun _ _ h => h.2
  obtain ⟨_, d', hrun, hhere, place', n', ht', -, hstores⟩ := hends.run_ok
  obtain ⟨rfl, rfl⟩ := ht.unique ht'
  exact ⟨d', hrun, hhere, hstores⟩

/-! ## The facades of a helper file -/

theorem map_eq_of_forall₂ {α β γ : Type} {R : α → β → Prop} {f : α → γ} {g : β → γ} {xs : List α}
    {ys : List β} (h : List.Forall₂ R xs ys) (hfg : ∀ x y, R x y → f x = g y) :
    xs.map f = ys.map g := by
  induction h with
  | nil => rfl
  | cons hxy _ ih => rw [List.map_cons, List.map_cons, hfg _ _ hxy, ih]

/-- A run that succeeds reports an item for each file that is a facade, and its helper file has the
stubs of these items. -/
theorem items_of_run_ok [Recovery] {report : Report} (h : (run c r d).result = .ok report) :
    ∃ files index items, gather c r d = .ok (files, index) ∧
      List.Forall₂ (fun decl item => Forwards c r index decl item.summary ∧ item.stub =
          StubClass.build (decl.namespaceName.getD "") decl.name item.summary.service index)
        (files.filterMap (facadeOf? c index)) items ∧
      report = (planOf c r files items).report ∧
      (run c r d).disk.read report.output =
        .ok (Utf8.bytesOf (helperText (ordered c.grouping (items.map (·.stub))))) := by
  obtain ⟨_, hplan, rfl, hwrite⟩ := plan_of_run_ok h
  obtain ⟨files, index, hg, hnone, rfl⟩ := gather_of_plan_ok hplan
  obtain ⟨p, hw⟩ := exists_written hwrite
  rcases itemsUntilError_cases c r index files with ⟨-, hall⟩ | ⟨e, he, -⟩
  · exact ⟨files, index, _, hg, hall, rfl, hw.read⟩
  · rw [hnone] at he
    cases he

/-- A run reports a class as often as there are scanned files that seem to declare it as a facade, and
its helper file declares the classes that it reports. So no class is declared twice exactly if no two
scanned files seem to declare the same facade. -/
theorem facades_counted [Recovery] {report : Report} (h : (run c r d).result = .ok report) :
    ∃ files index stubs, gather c r d = .ok (files, index) ∧
      (run c r d).disk.read report.output = .ok (Utf8.bytesOf (helperText stubs)) ∧
      (stubs.map fun s => qualifiedName (some s.namespaceName) s.shortName).Perm
        (report.facades.map (·.cls)) ∧
      (∀ key, report.facades.countP (fun s => classKey s.cls == key) =
        files.countP fun f => (facadeOf? c index f).any fun decl => classKey decl.fqn == key) ∧
      ((report.facades.map fun s => classKey s.cls).Nodup ↔ files.Pairwise fun f g =>
        ∀ decl, facadeOf? c index f = some decl → ∀ decl', facadeOf? c index g = some decl' →
          classKey decl.fqn ≠ classKey decl'.fqn) := by
  obtain ⟨files, index, items, hg, hall, rfl, hread⟩ := items_of_run_ok h
  -- One facade is reported for each file that is one, and both the report and the stub bear the name
  -- of its declaration.
  have hreported : (planOf c r files items).report.facades.map (·.cls) =
      (files.filterMap (facadeOf? c index)).map (·.fqn) := by
    rw [planOf, List.map_map]
    exact (map_eq_of_forall₂ hall fun decl i h => h.1.cls_eq.symm).symm
  have hdeclared : (items.map (·.stub)).map (fun s => qualifiedName (some s.namespaceName) s.shortName) =
      (files.filterMap (facadeOf? c index)).map (·.fqn) := by
    rw [List.map_map]
    refine (map_eq_of_forall₂ hall fun decl i h => ?_).symm
    simp only [Function.comp_apply, h.2]
    exact decl.qualifiedName_getD.symm
  have hkeys : (planOf c r files items).report.facades.map (fun s => classKey s.cls) =
      (files.filterMap (facadeOf? c index)).map fun decl => classKey decl.fqn := by
    have hmapped := congrArg (List.map classKey) hreported
    rwa [List.map_map, List.map_map] at hmapped
  refine ⟨files, index, _, hg, hread, ?_, fun key => ?_, ?_⟩
  · rw [hreported, ← hdeclared]
    exact (ordered_perm c.grouping _).map _
  · have hcount := congrArg (List.countP (· == key)) hkeys
    rw [List.countP_map, List.countP_map, List.countP_filterMap] at hcount
    refine hcount.trans (List.countP_congr fun f _ => ?_)
    cases facadeOf? c index f <;> simp
  · rw [hkeys, List.Nodup, List.pairwise_map, List.pairwise_filterMap]

/-- Two files of the shop declare the same facade, so the report has it twice, and so has the helper
file. -/
theorem facades_counted_shop : ∃ report stubs, (@run .nothing shopConfig {} shopDisk).result = .ok report ∧
    (@run .nothing shopConfig {} shopDisk).disk.read report.output = .ok (Utf8.bytesOf (helperText stubs)) ∧
    (stubs.map fun s => qualifiedName (some s.namespaceName) s.shortName).Perm
      ["A\\Cart", "B\\Desk", "A\\Cart"] ∧
    shopFiles.countP (fun f => (facadeOf? shopConfig shopIndex f).any fun decl =>
      classKey decl.fqn == "a\\cart") = 2 ∧
    ¬ shopFiles.Pairwise fun f g => ∀ decl, facadeOf? shopConfig shopIndex f = some decl →
      ∀ decl', facadeOf? shopConfig shopIndex g = some decl' → classKey decl.fqn ≠ classKey decl'.fqn := by
  let recovery : Recovery := .nothing
  obtain ⟨report, hreport, -, -, -, hfacades⟩ := shop_report
  obtain ⟨files, index, stubs, hg, hread, hperm, hcount, hdistinct⟩ := facades_counted hreport
  rw [shop_gather, Except.ok.injEq, Prod.mk.injEq] at hg
  obtain ⟨rfl, rfl⟩ := hg
  rw [hfacades] at hperm hdistinct
  refine ⟨report, stubs, hreport, hread, hperm, ?_, fun h => absurd (hdistinct.mpr h) (by decide +kernel)⟩
  rw [← hcount, hfacades]
  decide +kernel

end

end Generation

end FacadeStubs
