import FacadeStubs.Proofs.Run.Helper

/-!
# Grouping only reorders

A run writes the classes of its helper file as it has found them, or sorted by namespace. No step
before the writing looks at the choice, and whether a file can be written does not depend on what is in
it. So of two runs that differ in the choice only, both succeed or none, and they report the same; their
helper files differ in the order of the classes.

* `writeHelper_ok_iff`: when a helper file can be written, whatever its classes are;
* `run_regrouped`: the run with either choice;
* `grouping_only_reorders`: what both helper files look like, and what they have in common.
-/
namespace FacadeStubs

open Entry FileAction

namespace Generation

section

variable {c : Config} {r : Registry} {d : Disk} {output : String} {stubs : List StubClass}

/-- Where a helper file can be stored: its directory can be made, its path has the form of a file, and
no directory has its name. -/
def Storable (d : Disk) (output : String) : Prop :=
  ∃ d₁ place n, (createDirectories (Route.ofPath output).parent).run.run d = (.ok (), d₁) ∧
    Targets d₁ (Route.ofPath output) place n ∧ (Route.ofPath output).ending = .plain ∧
    d₁.top.sightAt? (place ++ [n]) ≠ some .directory

/-- Whether a helper file can be written depends neither on its classes nor on the way of writing. -/
theorem writeHelper_ok_iff :
    (∃ d', (writeHelper c output stubs).run.run d = (.ok (), d')) ↔ Storable d output := by
  constructor
  · rintro ⟨d', hrun⟩
    have hends : Ends (writeHelper c output stubs) d (fun _ _ => Storable d output)
        (fun _ _ => True) := by
      unfold writeHelper
      dsimp only
      rw [ends_bind]
      refine (ends_run _ d).mono (fun _ d₁ h₁ => ?_) fun _ _ _ => trivial
      split
      · refine (replace_ends _ _ _ d₁).mono (fun _ _ h => ?_) fun _ _ _ => trivial
        obtain ⟨-, place, n, ht, hplain, hstores⟩ := h
        exact ⟨d₁, place, n, h₁, ht, hplain, hstores.free⟩
      · refine (write_ends _ _ d₁).mono (fun _ _ h => ?_) fun _ _ _ => trivial
        obtain ⟨-, place, n, ht, hplain, hstores⟩ := h
        exact ⟨d₁, place, n, h₁, ht, hplain, hstores.free⟩
    exact hends.ok_of_run hrun
  · rintro ⟨d₁, place, n, h₁, ht, hplain, hfree⟩
    have hends : Ends (writeHelper c output stubs) d (fun _ _ => True) (fun _ _ => False) := by
      unfold writeHelper
      dsimp only
      rw [ends_bind]
      refine ends_of_run h₁ ?_
      split
      · exact replace_succeeds ht hplain hfree
      · exact write_succeeds ht hplain hfree
    obtain ⟨_, d', hrun, -⟩ := hends.run_ok
    exact ⟨d', hrun⟩

/-- Of a config, the stubs of source files depend on its markers and on autowiring only. -/
theorem itemsUntilError_congr {c' : Config} (hmarkers : c'.markers = c.markers)
    (hwire : c'.autowire = c.autowire) (index : ClassIndex) : ∀ files : List SourceFile,
    itemsUntilError c' r index files = itemsUntilError c r index files
  | [] => rfl
  | f :: rest => by
    have hfile : itemOfFile c' r index f = itemOfFile c r index f := by
      simp only [itemOfFile, itemOf, service?, hmarkers, hwire]
    simp only [itemsUntilError, hfile, itemsUntilError_congr hmarkers hwire index rest]

/-- A run that succeeds does so with either choice, with the same report, and each time the helper file
has the stubs of the reported facades. -/
theorem run_regrouped [Recovery] {report : Report} (h : (run c r d).result = .ok report) :
    ∃ files index, ∃ items : List Item, gather c r d = .ok (files, index) ∧
      List.Forall₂ (fun decl item => Forwards c r index decl item.summary ∧ item.stub =
          StubClass.build (decl.namespaceName.getD "") decl.name item.summary.service index)
        (files.filterMap (facadeOf? c index)) items ∧
      report.facades = items.map (·.summary) ∧
      ∀ g, (run { c with grouping := g } r d).result = .ok report ∧
        (run { c with grouping := g } r d).disk.read report.output =
          .ok (Utf8.bytesOf (helperText (ordered g (items.map (·.stub))))) := by
  obtain ⟨_, hplan, rfl, hwrite⟩ := plan_of_run_ok h
  obtain ⟨files, index, hg, hnone, rfl⟩ := gather_of_plan_ok hplan
  rcases itemsUntilError_cases c r index files with ⟨-, hall⟩ | ⟨e, he, -⟩
  · refine ⟨files, index, _, hg, hall, rfl, fun g => ?_⟩
    have hitems : itemsUntilError { c with grouping := g } r index files =
        itemsUntilError c r index files := itemsUntilError_congr (by rfl) (by rfl) index files
    have hplan' := plan_ok (c := { c with grouping := g }) (r := r) (d := d) hg
      ((congrArg Prod.snd hitems).trans hnone)
    rw [hitems] at hplan'
    obtain ⟨d', hwrite'⟩ := (writeHelper_ok_iff (c := { c with grouping := g })).mpr
      (writeHelper_ok_iff.mp ⟨_, hwrite⟩)
    obtain ⟨hresult, hdisk⟩ := run_result_ok hplan' hwrite'
    obtain ⟨p, hw⟩ := exists_written hwrite'
    exact ⟨hresult, hdisk ▸ hw.read⟩
  · rw [hnone] at he
    cases he

/-- The choice between grouped and interleaved namespaces only reorders a helper file.

If a run succeeds, it does so with either choice and returns the same report, which lists the facades
in the order of the scan. The grouped helper file has one block for each namespace, in the order of
the bytes, with its classes in the order of the scan; the interleaved one has a block for each run of
classes with the same namespace. Both have the same class texts, each as often as the other, and they
are the same file if the namespaces are in order already. -/
theorem grouping_only_reorders [Recovery] {report : Report} (h : (run c r d).result = .ok report) :
    ∃ files index, ∃ items : List Item, ∃ grouped interleaved,
      gather c r d = .ok (files, index) ∧
      List.Forall₂ (fun decl item => Forwards c r index decl item.summary ∧ item.stub =
          StubClass.build (decl.namespaceName.getD "") decl.name item.summary.service index)
        (files.filterMap (facadeOf? c index)) items ∧
      report.facades = items.map (·.summary) ∧
      (∀ g, (run { c with grouping := g } r d).result = .ok report) ∧
      (run { c with grouping := .grouped } r d).disk.read report.output =
        .ok (Utf8.bytesOf ("<?php\n\n" ++ joined "" (grouped.map Block.text))) ∧
      GroupedBlocks (items.map (·.stub)) grouped ∧
      (run { c with grouping := .interleaved } r d).disk.read report.output =
        .ok (Utf8.bytesOf ("<?php\n\n" ++ joined "" (interleaved.map Block.text))) ∧
      Runs (items.map (·.stub)) interleaved ∧
      (∀ b ∈ grouped ++ interleaved, b.text = (if b.namespaceName = "" then "namespace \x7b\n\n"
          else "namespace " ++ b.namespaceName ++ " \x7b\n\n") ++
        joined "" (b.classes.map StubWriter.classText) ++ "\x7d\n\n") ∧
      (classTexts grouped).Perm (classTexts interleaved) ∧
      ((items.map (·.stub)).Pairwise (fun a b =>
          Utf8.bytesOf a.namespaceName ≤ Utf8.bytesOf b.namespaceName) →
        (run { c with grouping := .grouped } r d).disk.read report.output =
          (run { c with grouping := .interleaved } r d).disk.read report.output) := by
  obtain ⟨files, index, items, hg, hall, hreport, hruns⟩ := run_regrouped h
  obtain ⟨grouped, hgrouped⟩ := exists_runs (ordered .grouped (items.map (·.stub)))
  obtain ⟨interleaved, hinterleaved⟩ := exists_runs (items.map (·.stub))
  refine ⟨files, index, items, grouped, interleaved, hg, hall, hreport, fun g => (hruns g).1, ?_,
    groupedBlocks_of_runs hgrouped, ?_, hinterleaved, fun _ _ => rfl, ?_, fun hsorted => ?_⟩
  · rw [(hruns .grouped).2, helperText_of_runs hgrouped, fileText]
  · rw [(hruns .interleaved).2, ordered, helperText_of_runs hinterleaved, fileText]
  · rw [hgrouped.classTexts_eq, hinterleaved.classTexts_eq]
    exact (ordered_perm .grouped _).map _
  · rw [(hruns .grouped).2, (hruns .interleaved).2,
      ordered_grouped_of_pairwise (hsorted.imp Utf8.bytesOf_le_iff.mp), ordered]

/-- The facades of the shop in the order of the scan. -/
theorem shop_namespaces : (shopFiles.filterMap (facadeOf? shopConfig shopIndex)).map
    (fun decl => decl.namespaceName.getD "") = ["A", "B", "A"] := by
  have hcandidates := shop_candidates
  simp only [shopFiles, List.map_cons, List.map_nil, List.cons.injEq, and_true] at hcandidates
  obtain ⟨hcart, hdesk, hagain⟩ := hcandidates
  simp only [shopFiles, List.filterMap_cons, facadeOf?, hcart, hdesk, hagain]
  decide +kernel

/-- The facades of the shop are of two namespaces, one of which is opened again: grouped they make two
blocks, interleaved three. -/
theorem grouping_only_reorders_shop : ∃ report grouped interleaved,
    (∀ g, (@run .nothing { shopConfig with grouping := g } {} shopDisk).result = .ok report) ∧
    report.facades = shopFacades ∧
    (@run .nothing { shopConfig with grouping := .grouped } {} shopDisk).disk.read report.output =
      .ok (Utf8.bytesOf ("<?php\n\n" ++ joined "" (grouped.map Block.text))) ∧
    grouped.map (·.namespaceName) = ["A", "B"] ∧
    (@run .nothing { shopConfig with grouping := .interleaved } {} shopDisk).disk.read report.output =
      .ok (Utf8.bytesOf ("<?php\n\n" ++ joined "" (interleaved.map Block.text))) ∧
    interleaved.map (·.namespaceName) = ["A", "B", "A"] ∧
    (classTexts grouped).Perm (classTexts interleaved) := by
  let recovery : Recovery := .nothing
  obtain ⟨report, hreport, -, -, -, hfacades⟩ := shop_report
  obtain ⟨files, index, items, grouped, interleaved, hg, hall, -, hruns, hread, hblocks, hread', hruns',
    -, hperm, -⟩ := grouping_only_reorders hreport
  rw [shop_gather, Except.ok.injEq, Prod.mk.injEq] at hg
  obtain ⟨rfl, rfl⟩ := hg
  have hnames : (items.map (·.stub)).map (·.namespaceName) = ["A", "B", "A"] := by
    rw [← shop_namespaces, List.map_map]
    exact (map_eq_of_forall₂ hall fun decl i h => by rw [Function.comp_apply, h.2]; rfl).symm
  refine ⟨report, grouped, interleaved, hruns, hfacades, hread, ?_, hread', ?_, hperm⟩
  · have hascending : (grouped.map (·.namespaceName)).Pairwise (· < ·) :=
      List.pairwise_map.2 (hblocks.ascending.imp Utf8.bytesOf_lt_iff.1)
    refine List.Perm.eq_of_pairwise' hascending (by decide) ?_
    refine (List.perm_ext_iff_of_nodup (hascending.imp ne_of_lt) (by decide)).2 fun ns => ?_
    have hmem := hblocks.namespaces ns
    rw [← List.mem_map, ← List.mem_map, hnames] at hmem
    rw [hmem]
    simp only [List.mem_cons, List.not_mem_nil, or_false]
    tauto
  · rw [hruns'.namespaces, hnames]
    decide

end

end Generation

end FacadeStubs
