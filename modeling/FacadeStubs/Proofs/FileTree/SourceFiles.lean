import FacadeStubs.Scan
import FacadeStubs.Proofs.FileTree.Order
import FacadeStubs.Proofs.FileTree.Routes
import FacadeStubs.Proofs.Text.Words

/-!
# The source files of a directory

Which files a scan of a directory finds. `IsSource` says it of the place of a file alone, with the texts
of its names: the name of the file is a stem with `.php` behind it, no directory on the way has a name
that starts with a dot, and no exclude pattern accepts the path.

* `isSourceName_iff`, `isHidden_iff`: what the scan asks of a name, as a statement about its text;
* `scan_eq_ok_iff`: the files of a scan are those of the walk whose names it takes up (`takesUp`);
* `takesUp_iff`: a walk of a directory takes up the places that `IsSource` admits;
* `mem_scan_iff`: so a scan has the files whose names it takes up, whatever its path leads to;
* `scan_exact`: a scan finds the files at these places, each of them once, in the order of their places.
-/
namespace FacadeStubs

open Entry

/-! ## Names -/

/-- The extension of a name is what stands behind its last dot, if something stands in front of it. -/
theorem Path.extension?_eq_some_iff {name extension : String} :
    Path.extension? name = some extension ↔
      ∃ stem, stem ≠ "" ∧ name = stem ++ "." ++ extension ∧ '.' ∉ extension.toList := by
  rw [Path.extension?]
  constructor
  · intro h
    cases hcut : cutAtLast? '.' name.toList with
    | none => simp [hcut] at h
    | some parts =>
      obtain ⟨stem, behind⟩ := parts
      obtain ⟨hname, hbehind⟩ := cutAtLast?_eq_some_iff.mp hcut
      simp only [hcut, List.isEmpty_iff, Option.ite_none_left_eq_some, Option.some.injEq] at h
      obtain ⟨hstem, rfl⟩ := h
      refine ⟨String.ofList stem, fun h => hstem (by simpa using congrArg String.toList h), ?_, by simpa⟩
      exact String.toList_inj.mp (by simpa using hname)
  · rintro ⟨stem, hstem, rfl, hextension⟩
    have hlist : (stem ++ "." ++ extension).toList = stem.toList ++ '.' :: extension.toList := by simp
    rw [hlist, cutAtLast?_append hextension]
    have hne : stem.toList ≠ [] := fun h => hstem (String.toList_inj.mp h)
    simp [hne]

/-- A name is that of a source file if it is a stem with the extension behind it. -/
theorem isSourceName_iff {name : String} :
    isSourceName name = true ↔ ∃ stem, stem ≠ "" ∧ name = stem ++ ".php" := by
  rw [isSourceName, beq_iff_eq, Path.extension?_eq_some_iff]
  refine exists_congr fun stem => and_congr_right fun _ => ?_
  rw [String.append_assoc]
  exact and_iff_left (by decide)

theorem isHidden_iff {name : String} : isHidden name = true ↔ ∃ rest, name = "." ++ rest := by
  rw [isHidden, beq_iff_eq, List.head?_eq_some_iff]
  constructor
  · rintro ⟨rest, h⟩
    exact ⟨String.ofList rest, String.toList_inj.mp (by simpa using h)⟩
  · rintro ⟨rest, rfl⟩
    exact ⟨rest.toList, by simp⟩

/-! ## What a scan takes up -/

/-- Whether a scan takes up a file by the names that lead to it: no directory on the way is hidden,
the name of the file is that of a source file, and no pattern excludes it. Without names it is the
file that the path of the scan leads to. -/
def takesUp (path : String) (excluded : List (List Glob.Token)) (names : Place) : Bool :=
  names.dropLast.all (fun n => !isHidden n) &&
    (names.getLast?.or (Path.fileName? path)).any isSourceName &&
    !excluded.any fun pattern => Glob.accepts pattern (Utf8.bytesOf (joined "/" names))

/-- The files that a scan may take up below an entry, with the names that lead to them. -/
def scanned : Entry → List (Place × Bytes)
  | .file content => [([], content)]
  | .dir entries => filesBelow (fun n => !isHidden n) (.dir entries)

theorem sourceFiles_filter (path : String) (excluded : List (List Glob.Token)) (e : Entry) :
    ((sourceFiles path e).filter fun f =>
      !excluded.any fun pattern => Glob.accepts pattern (Utf8.bytesOf f.relativePath)) =
      ((scanned e).filter fun f => takesUp path excluded f.1).map fun f =>
        ⟨Path.joinAll path f.1, f.1, f.2⟩ := by
  cases e with
  | file content =>
    cases h : (Path.fileName? path).any isSourceName <;>
      simp [sourceFiles, scanned, takesUp, h, SourceFile.relativePath, Path.joinAll, List.filter_cons,
        apply_ite]
  | dir entries =>
    simp only [sourceFiles, scanned, List.filter_map, List.filter_filter]
    congr 1
    refine List.filter_congr fun f hf => ?_
    obtain ⟨hne, hall⟩ := filesBelow_entered _ _ f hf
    obtain ⟨n, hn⟩ := Option.isSome_iff_exists.mp (List.getLast?_isSome.mpr hne)
    have hentered : f.1.dropLast.all (fun n => !isHidden n) = true := List.all_eq_true.mpr hall
    simp [takesUp, hentered, hn, SourceFile.relativePath, Bool.and_comm]

theorem scan_eq_ok_iff {d : Disk} {path : String} {excluded : List (List Glob.Token)}
    {files : List SourceFile} : scan d path excluded = .ok files ↔
      ∃ q e, d.locate (Route.ofPath path) = .ok (q, e) ∧
        files = ((scanned e).filter fun f => takesUp path excluded f.1).map fun f =>
          ⟨Path.joinAll path f.1, f.1, f.2⟩ := by
  unfold scan Disk.entryAt
  simp only [sourceFiles_filter]
  cases d.locate (Route.ofPath path) with
  | error e => simp [Except.map]
  | ok x =>
    obtain ⟨q, e⟩ := x
    simp [Except.map, eq_comm]

/-! ## Places -/

/-- What a scan asks of the place of a file below the scanned directory. -/
structure IsSource (excluded : List (List Glob.Token)) (names : Place) : Prop where
  named : ∃ above stem, stem ≠ "" ∧ names = above ++ [stem ++ ".php"]
  visible : ∀ n ∈ names.dropLast, ∀ rest, n ≠ "." ++ rest
  wanted : ∀ pattern ∈ excluded, Glob.accepts pattern (Utf8.bytesOf (joined "/" names)) = false

theorem any_isSourceName_getLast?_iff {names : Place} : names.getLast?.any isSourceName = true ↔
    ∃ above stem, stem ≠ "" ∧ names = above ++ [stem ++ ".php"] := by
  rw [Option.any_eq_true]
  constructor
  · rintro ⟨n, hn, hsource⟩
    obtain ⟨above, habove⟩ := List.getLast?_eq_some_iff.mp hn
    obtain ⟨stem, hstem, rfl⟩ := isSourceName_iff.mp hsource
    exact ⟨above, stem, hstem, habove⟩
  · rintro ⟨above, stem, hstem, rfl⟩
    exact ⟨_, List.getLast?_concat, isSourceName_iff.mpr ⟨stem, hstem, rfl⟩⟩

/-- A directory is entered if its name does not start with a dot. -/
theorem not_isHidden_iff {name : String} : (!isHidden name) = true ↔ ∀ rest, name ≠ "." ++ rest := by
  rw [Bool.not_eq_true', ← Bool.not_eq_true, isHidden_iff, not_exists]

/-- Below a directory, what is asked of a place is what makes a scan take it up. -/
theorem takesUp_iff {path : String} {excluded : List (List Glob.Token)} {names : Place}
    (hne : names ≠ []) : takesUp path excluded names = true ↔ IsSource excluded names := by
  obtain ⟨n, hn⟩ := Option.isSome_iff_exists.mp (List.getLast?_isSome.mpr hne)
  have hlast : names.getLast?.or (Path.fileName? path) = names.getLast? := by simp [hn]
  rw [takesUp, hlast, Bool.and_eq_true, Bool.and_eq_true, any_isSourceName_getLast?_iff, List.all_eq_true]
  simp only [not_isHidden_iff]
  constructor
  · rintro ⟨⟨hvisible, hnamed⟩, hwanted⟩
    exact ⟨hnamed, hvisible, by simpa using hwanted⟩
  · rintro ⟨hnamed, hvisible, hwanted⟩
    exact ⟨⟨hvisible, hnamed⟩, by simpa using hwanted⟩

section Scanning

variable {path : String} {excluded : List (List Glob.Token)} {entries : List (String × Entry)}

/-- Of a proper directory, a scan lists the files at the places that it asks for. -/
theorem mem_scanned_takesUp_iff (h : (dir entries).Proper) {names : Place} {content : Bytes} :
    ((names, content) ∈ (scanned (dir entries)).filter fun f => takesUp path excluded f.1) ↔
      (dir entries).at? names = some (file content) ∧ IsSource excluded names := by
  rw [List.mem_filter, scanned, mem_filesBelow_iff _ _ _ h]
  constructor
  · rintro ⟨⟨hfile, -⟩, htakes⟩
    have hne : names ≠ [] := by
      rintro rfl
      cases hfile
    exact ⟨hfile, (takesUp_iff hne).mp htakes⟩
  · rintro ⟨hfile, hsource⟩
    have hne : names ≠ [] := by
      rintro rfl
      cases hfile
    exact ⟨⟨hfile, fun n hn => not_isHidden_iff.mpr (hsource.visible n hn)⟩,
      (takesUp_iff hne).mpr hsource⟩

/-- Of a proper tree, a scan has the files below the place that its path leads to whose names it takes up. -/
theorem mem_scan_iff {d : Disk} (hproper : d.top.Proper) {q : Place} {e : Entry}
    (hl : d.locate (Route.ofPath path) = .ok (q, e)) {files : List SourceFile}
    (h : scan d path excluded = .ok files) {f : SourceFile} :
    f ∈ files ↔ f.path = Path.joinAll path f.names ∧
      d.top.at? (q ++ f.names) = some (file f.content) ∧ takesUp path excluded f.names = true := by
  obtain ⟨q', e', hl', rfl⟩ := scan_eq_ok_iff.mp h
  rw [hl, Except.ok.injEq, Prod.mk.injEq] at hl'
  obtain ⟨rfl, rfl⟩ := hl'
  have hat := (Disk.locate_ok hl).1
  have hbelow : ∀ names content, (names, content) ∈ (scanned e).filter (fun f => takesUp path excluded f.1) ↔
      e.at? names = some (file content) ∧ takesUp path excluded names = true := by
    intro names content
    cases e with
    | file bytes =>
      rw [List.mem_filter, scanned, List.mem_singleton, Prod.mk.injEq]
      refine and_congr_left fun _ => ?_
      cases names <;> simp [at?, eq_comm]
    | dir entries =>
      rw [mem_scanned_takesUp_iff (hproper.at? hat)]
      refine and_congr_right fun hfile => (takesUp_iff ?_).symm
      rintro rfl
      cases hfile
  rw [at?_append, hat, Option.bind_some, ← hbelow, List.mem_map]
  constructor
  · rintro ⟨⟨names, content⟩, hf, rfl⟩
    exact ⟨rfl, hf⟩
  · rintro ⟨hpath, hf⟩
    exact ⟨_, hf, by rw [← hpath]⟩

/-- A scan of a directory finds the files at the places that `IsSource` admits and no others, with the
path and the bytes of each, none of them twice, in the order of their places. -/
theorem scan_exact {d : Disk} (hproper : d.top.Proper) (hdir : d.entryAt path = .ok (dir entries)) :
    ∃ files, scan d path excluded = .ok files ∧
      (∀ f : SourceFile, f ∈ files ↔ f.path = Path.joinAll path f.names ∧
        (dir entries).at? f.names = some (file f.content) ∧ IsSource excluded f.names) ∧
      (files.map SourceFile.names).Nodup ∧
      files.Pairwise fun f g => f.names.Before g.names := by
  obtain ⟨q, hl⟩ := Disk.entryAt_eq_ok_iff.mp hdir
  have hentries : (dir entries).Proper := hproper.at? (Disk.locate_ok hl).1
  have hsorted : ((scanned (dir entries)).filter fun f => takesUp path excluded f.1).Pairwise
      fun f g => f.1.Before g.1 := (filesBelow_before _ _ hentries).filter _
  refine ⟨_, scan_eq_ok_iff.mpr ⟨q, _, hl, rfl⟩, fun f => ?_, ?_, ?_⟩
  · rw [← @mem_scanned_takesUp_iff path _ _ hentries, List.mem_map]
    constructor
    · rintro ⟨⟨names, content⟩, hf, rfl⟩
      exact ⟨rfl, hf⟩
    · rintro ⟨hpath, hf⟩
      exact ⟨_, hf, by rw [← hpath]⟩
  · rw [List.map_map]
    exact List.pairwise_map.mpr (hsorted.imp Place.Before.ne)
  · exact List.pairwise_map.mpr hsorted

end Scanning

/-! ### A directory with names of all kinds -/

/-- The entries of a source directory: a directory and a file whose name goes on where that of the
directory ends, a hidden directory, a name without a stem, and tests. -/
def mixedSources : List (String × Entry) :=
  [("a.php", file []), ("Tests", dir [("OneTest.php", file [])]), (".php", file []),
    (".cache", dir [("Hidden.php", file [])]), ("a", dir [("notes.txt", file []), ("One.php", file [])])]

def mixedDisk : Disk where
  top := dir [("src", dir mixedSources)]

theorem mixedDisk_proper : mixedDisk.top.Proper := by
  simp [mixedDisk, mixedSources, proper_dir_iff, proper_file]

/-- The pattern of all that is below a directory with tests. -/
def testsPattern : List Glob.Token := "Tests".toList.map .literal ++ [.recursiveSuffix]

theorem scan_exact_mixed :
    mixedDisk.top.Proper ∧ mixedDisk.entryAt "src" = .ok (dir mixedSources) ∧
      ∃ files, scan mixedDisk "src" [testsPattern] = .ok files ∧
        ⟨"src/a/One.php", ["a", "One.php"], []⟩ ∈ files ∧
        (∀ f ∈ files, f.names ≠ ["Tests", "OneTest.php"]) ∧
        files.Pairwise fun f g => f.names.Before g.names := by
  have hdir : mixedDisk.entryAt "src" = .ok (dir mixedSources) := by rfl
  obtain ⟨files, hscan, hmem, -, hsorted⟩ := scan_exact mixedDisk_proper hdir
  have hone : IsSource [testsPattern] ["a", "One.php"] := by
    rw [← @takesUp_iff "src" _ _ (by simp)]
    decide +kernel
  have htest : ¬IsSource [testsPattern] ["Tests", "OneTest.php"] := by
    rw [← @takesUp_iff "src" _ _ (by simp)]
    decide +kernel
  refine ⟨mixedDisk_proper, hdir, files, hscan, (hmem _).mpr ⟨by decide +kernel, by rfl, hone⟩, ?_, hsorted⟩
  rintro f hf hnames
  exact htest (hnames ▸ ((hmem f).mp hf).2.2)

end FacadeStubs
