import FacadeStubs.Proofs.Index.Additions
import FacadeStubs.Proofs.Run.Facts
import FacadeStubs.Proofs.Run.ProperTrees

/-!
# Running again

A run writes its helper file into the tree that it reads, so a second run may find the helper file
among its sources: in the source directory, or in a directory that is only indexed. The second run
writes the same bytes if the helper file that it reads has no effect (`IdleHelper`): every class that
it declares is declared by a file in front of it, so the first declaration wins, and it is no facade
itself. The same is asked of what stood in its place when the first run read it.

In the source directory a helper file is taken for a facade by the classes that it declares, so there it
has an effect. Directories that are only indexed are read behind the source directory. A helper file
there declares the facades of the report, which scanned files have declared already.

* `decls_insertAll_flatMap`: files whose classes are all declared already leave an index as it is;
* `itemsUntilError_congr_index`: what a run decides about its files is known from the declarations;
* `scans_again`: the walks of the second run find what those of the first one found, but for the
  helper file;
* `IdleHelper.of_indexed`: a helper file that only the walks of indexed directories read, and whose
  classes scanned files declare, has no effect;
* `run_again_of_idle`: where the helper file has no effect, the second run writes it again;
* `run_again`: outside the source directory a helper file that can be read has none.
-/
namespace FacadeStubs

open Entry FileAction

/-! ## Indices with the same declarations -/

namespace ClassIndex

theorem sameAnswers_of_decls {I J : ClassIndex} (h : I.decls = J.decls) : SameAnswers I J :=
  sameAnswers_of_get? fun name => by rw [get?_eq_firstOf?, get?_eq_firstOf?, h]

/-- Declarations whose keys are all taken leave an index as it is. -/
theorem insertAll_taken {index : ClassIndex} : ∀ {ds : List ClassDecl},
    (∀ d ∈ ds, keyOf d ∈ index.keys) → index.insertAll ds = index
  | [], _ => rfl
  | d :: ds, h => by
    rcases insert_cases index d with ⟨-, heq⟩ | ⟨hfree, -, -⟩
    · show (index.insert d).insertAll ds = index
      rw [heq]
      exact insertAll_taken fun e he => h e (List.mem_cons_of_mem _ he)
    · exact absurd (h d List.mem_cons_self) hfree

/-- Of several groups of declarations those can be left out that only repeat keys of the index or of
groups in front of them. -/
theorem decls_insertAll_flatMap {α : Type} {classes : α → List ClassDecl} {idle : α → Bool} :
    ∀ {xs : List α} {index : ClassIndex}, (∀ before x after, xs = before ++ x :: after → idle x = true →
      ∀ d ∈ classes x, keyOf d ∈ index.keys ∨ ∃ y ∈ before, ∃ e ∈ classes y, keyOf e = keyOf d) →
    (index.insertAll (xs.flatMap classes)).decls =
      (index.insertAll ((xs.filter fun x => !idle x).flatMap classes)).decls
  | [], _, _ => rfl
  | x :: xs, index, h => by
    have hrest : ∀ before y after, xs = before ++ y :: after → idle y = true → ∀ d ∈ classes y,
        keyOf d ∈ (index.insertAll (classes x)).keys ∨
          ∃ z ∈ before, ∃ e ∈ classes z, keyOf e = keyOf d := by
      intro before y after heq hidle d hd
      rw [mem_keys_insertAll]
      rcases h (x :: before) y after (by rw [heq, List.cons_append]) hidle d hd with
        hkey | ⟨z, hz, e, he, hkey⟩
      · exact .inl (.inl hkey)
      · rcases List.mem_cons.1 hz with rfl | hz
        · exact .inl (.inr (hkey ▸ List.mem_map_of_mem he))
        · exact .inr ⟨z, hz, e, he, hkey⟩
    rw [List.flatMap_cons, insertAll_append, decls_insertAll_flatMap hrest]
    cases hx : idle x with
    | false =>
      rw [List.filter_cons_of_pos (by simp [hx]), List.flatMap_cons, insertAll_append]
    | true =>
      have htaken : ∀ d ∈ classes x, keyOf d ∈ index.keys := fun d hd =>
        (h [] x xs (by simp) hx d hd).resolve_right (by simp)
      rw [List.filter_cons_of_neg (by simp [hx]), insertAll_taken htaken]

end ClassIndex

namespace Export

section

variable {I J : ClassIndex}

theorem fold_congr (h : ∀ c n, I.constant? c n = J.constant? c n) : ∀ budget, fold I budget = fold J budget
  | 0 => rfl
  | budget + 1 => by simp only [fold, h, fold_congr h budget]

theorem levelAt_congr (h : ∀ c n, I.constant? c n = J.constant? c n) (restart : Literal → Option String) :
    ∀ budget, levelAt I restart budget = levelAt J restart budget
  | 0 => by simp only [levelAt, fold_congr h]
  | budget + 1 => by
    have hfollow : I.constant? = J.constant? := funext fun c => funext (h c)
    simp only [levelAt, fold_congr h, hfollow, levelAt_congr h restart budget]

theorem textWithin?_congr (h : ∀ c n, I.constant? c n = J.constant? c n) :
    ∀ restarts, textWithin? I restarts = textWithin? J restarts
  | 0 => rfl
  | restarts + 1 => by
    funext v
    simp only [textWithin?, textWithin?_congr h restarts, levelAt_congr h]

/-- The text of an expression is known from the declarations of the index. -/
theorem text?_congr (h : I.decls = J.decls) (v : Literal) : text? I v = text? J v := by
  simp only [text?, indexArrayCount, h, textWithin?_congr (ClassIndex.sameAnswers_of_decls h).constant?]

end

end Export

namespace Generation

section

variable {c : Config} {r : Registry} {I J : ClassIndex} {files : List SourceFile}

theorem build_congr (h : I.decls = J.decls) (ns name service : String) :
    StubClass.build ns name service I = StubClass.build ns name service J := by
  have hparams : ∀ ps : List Param,
      StubMethod.paramTexts service I ps = StubMethod.paramTexts service J ps := by
    intro ps
    induction ps with
    | nil => rfl
    | cons p ps ih =>
      simp only [StubMethod.paramTexts, StubMethod.paramText, StubMethod.defaultPart, Export.text,
        Export.text?_congr h, ih]
  simp only [StubClass.build, StubMethod.ofMethod, (ClassIndex.sameAnswers_of_decls h).methodsOf, hparams]

theorem hasTexts_congr (h : I.decls = J.decls) (service : String) :
    StubClass.hasTexts service I = StubClass.hasTexts service J := by
  simp only [StubClass.hasTexts, (ClassIndex.sameAnswers_of_decls h).methodsOf, Export.text?_congr h]

theorem key?_congr (h : ∀ c n, I.constant? c n = J.constant? c n) (called : String) :
    ∀ budget, Facade.key? I called budget = Facade.key? J called budget
  | 0 => rfl
  | budget + 1 => by simp only [Facade.key?, h, key?_congr h called budget]

theorem ofCandidate_congr (h : I.decls = J.decls) (markers : List String) (x : Candidate) :
    Facade.ofCandidate I markers x = Facade.ofCandidate J markers x := by
  have hsame := ClassIndex.sameAnswers_of_decls h
  simp only [Facade.ofCandidate, Facade.eligible?, Facade.isMarked, Facade.accessorKey, hsame.get?,
    hsame.isSubclassOf, hsame.implements, hsame.findMethod?, key?_congr hsame.constant?]

theorem itemOf_congr (h : I.decls = J.decls) (f : Facade) : itemOf c r I f = itemOf c r J f := by
  have hsame := ClassIndex.sameAnswers_of_decls h
  simp only [itemOf, service?, Registry.wiredService?, Registry.autowired?, hsame.get?, hasTexts_congr h,
    build_congr h]

/-- What a run decides about its files is known from the declarations of the index. -/
theorem itemsUntilError_congr_index (h : I.decls = J.decls) : ∀ files : List SourceFile,
    itemsUntilError c r I files = itemsUntilError c r J files
  | [] => rfl
  | f :: files => by
    simp only [itemsUntilError, itemOfFile, ofCandidate_congr h, itemOf_congr h,
      itemsUntilError_congr_index h files]

theorem omissions_congr (h : I.decls = J.decls) (items : List Item) : omissions I items = omissions J items := by
  simp only [omissions, (ClassIndex.sameAnswers_of_decls h).unindexedSupertypes]

/-- Files that are no facades can be left out. -/
theorem itemsUntilError_filter {idle : SourceFile → Bool} : ∀ {files : List SourceFile},
    (∀ f ∈ files, idle f = true → facadeOf? c I f = none) →
    itemsUntilError c r I files = itemsUntilError c r I (files.filter fun f => !idle f)
  | [], _ => rfl
  | f :: files, h => by
    have ih := itemsUntilError_filter (fun g hg => h g (List.mem_cons_of_mem _ hg))
    cases hf : idle f with
    | false => rw [List.filter_cons_of_pos (by simp [hf]), itemsUntilError, itemsUntilError, ih]
    | true =>
      rw [List.filter_cons_of_neg (by simp [hf]), ← ih, itemsUntilError,
        itemOfFile_none (h f List.mem_cons_self hf)]

end

end Generation

/-! ## What is read of the helper file -/

/-- The place that a path leads to. -/
def Disk.placeOf? (d : Disk) (path : String) : Option Place :=
  (d.locate (Route.ofPath path)).toOption.map (·.1)

/-- What the analysis finds in a source file. -/
def SourceFile.facts? [Recovery] (base : String) (f : SourceFile) : Option FileFacts :=
  fileFacts? ((Path.stripPrefix? f.path base).getD f.path) f.content

/-- The classes that a source file declares. -/
def SourceFile.classes [Recovery] (base : String) (f : SourceFile) : List ClassDecl :=
  ((f.facts? base).map (·.classes)).getD []

/-- A source file declares a class of a key. -/
def SourceFile.Declares [Recovery] (base : String) (f : SourceFile) (key : String) : Prop :=
  ∃ d ∈ f.classes base, ClassIndex.keyOf d = key

section
variable {f : SourceFile} {base key : String} {facts : FileFacts}

theorem SourceFile.classes_of_facts [Recovery] (h : f.facts? base = some facts) :
    f.classes base = facts.classes := by
  rw [classes, h]
  rfl

theorem SourceFile.Declares.of_facts [Recovery] (hfacts : f.facts? base = some facts)
    (h : ∃ d ∈ facts.classes, ClassIndex.keyOf d = key) : f.Declares base key := by
  rw [Declares, classes_of_facts hfacts]
  exact h

end

/-! ## Temporary files -/

/-- A temporary file does not show in a scan: its name starts with its only dot. -/
theorem temporary_unseen {n : String} (h : IsTemporary n) : isHidden n = true ∧ isSourceName n = false := by
  obtain ⟨i, rfl⟩ := h
  have hlist : (".tmp" ++ toString i).toList = '.' :: ('t' :: 'm' :: 'p' :: Nat.toDigits 10 i) := by
    simp
  refine ⟨by simp [isHidden], ?_⟩
  have hdot : '.' ∉ ('t' :: 'm' :: 'p' :: Nat.toDigits 10 i).reverse := by
    intro hmem
    simp only [List.mem_reverse, List.mem_cons, Char.reduceEq, false_or] at hmem
    have hdigit := Nat.isDigit_of_mem_toDigits (by decide) (by decide) hmem
    revert hdigit
    decide
  have hcut : cutAtLast? '.' (".tmp" ++ toString i).toList =
      some ([], 't' :: 'm' :: 'p' :: Nat.toDigits 10 i) := by
    rw [cutAtLast?, hlist, List.reverse_cons, cutAt?_append '.' [] _ hdot]
    simp
  unfold isSourceName Path.extension?
  rw [hcut]
  rfl

/-- A look at a tree that sees what a scan takes up below a place, but for one place. -/
theorem exists_blind (path : String) (excluded : List (List Glob.Token)) (p q : Place) :
    ∃ keep, Blind (fun n => !isHidden n) keep p ∧
      ∀ names, names ≠ [] → keep (q ++ names) = (takesUp path excluded names && q ++ names != p) := by
  classical
  refine ⟨fun x => decide (∃ names, names ≠ [] ∧ x = q ++ names ∧ takesUp path excluded names = true ∧ x ≠ p),
    ⟨?_, fun n hn => ⟨?_, fun place => ?_⟩⟩, fun names hne => ?_⟩
  · rw [decide_eq_false_iff_not]
    rintro ⟨names, -, -, -, hp⟩
    exact hp rfl
  · simp [(temporary_unseen hn).1]
  · rw [decide_eq_false_iff_not]
    rintro ⟨names, hne, heq, htakes, -⟩
    have hlast : names.getLast? = some n := by
      have hboth := congrArg List.getLast? heq
      rwa [List.getLast?_concat, List.getLast?_append_of_ne_nil q hne, eq_comm] at hboth
    simp [takesUp, hlast, (temporary_unseen hn).2] at htakes
  · rw [Bool.eq_iff_iff, decide_eq_true_eq, Bool.and_eq_true, bne_iff_ne]
    constructor
    · rintro ⟨names', -, heq, htakes, hp⟩
      rw [List.append_cancel_left heq]
      exact ⟨htakes, List.append_cancel_left heq ▸ hp⟩
    · rintro ⟨htakes, hp⟩
      exact ⟨names, hne, rfl, htakes, hp⟩

theorem Disk.placeOf?_eq_some {d : Disk} {path : String} {q : Place} {e : Entry}
    (h : d.locate (Route.ofPath path) = .ok (q, e)) : d.placeOf? path = some q := by
  simp [placeOf?, h, Except.toOption]

/-- Paths lead where they have led before. -/
theorem Written.locates {d d' : Disk} {output : String} {p q : Place} {content : Bytes} {route : Route}
    {e : Entry} (hw : Written d d' output p content) (hl : d.locate route = .ok (q, e)) :
    ∃ e', d'.locate route = .ok (q, e') := by
  obtain ⟨hat, -⟩ := Disk.locate_ok hl
  have hkept : ∀ e', d'.top.at? q = some e' → ∃ e', d'.locate route = .ok (q, e') := fun e' hat' =>
    ⟨e', Disk.locate_kept hl hw.directories hw.here hat'⟩
  by_cases hq : q = p
  · exact hkept _ (hq ▸ sightAt?_eq_content.mp hw.stored)
  · cases e with
    | file bytes => exact hkept _ (sightAt?_eq_content.mp (hw.kept q _ hq (sightAt?_eq_content.mpr hat)))
    | dir entries =>
      obtain ⟨entries', hat'⟩ := hw.directories.at? ⟨_, hat⟩
      exact hkept _ hat'

/-- A scan finds what it has found before, but for the file that was written. -/
theorem scan_again {d d' : Disk} {output path : String} {p : Place} {content : Bytes}
    {excluded : List (List Glob.Token)} {files : List SourceFile}
    (hw : Written d d' output p content) (h : scan d path excluded = .ok files) :
    ∃ files' q, scan d' path excluded = .ok files' ∧ d'.placeOf? path = some q ∧
      files'.filter (fun f => q ++ f.names != p) = files.filter fun f => q ++ f.names != p := by
  obtain ⟨q, e, hl, rfl⟩ := scan_eq_ok_iff.mp h
  obtain ⟨hat, -⟩ := Disk.locate_ok hl
  have hlocate : ∀ e', d'.top.at? q = some e' → d'.locate (Route.ofPath path) = .ok (q, e') :=
    fun _ => Disk.locate_kept hl hw.directories hw.here
  -- Of both walks the files at other places are the same, if those are that the look sees.
  have hfound : ∀ e', d'.top.at? q = some e' →
      (scanned e').filter (fun f => takesUp path excluded f.1 && q ++ f.1 != p) =
        (scanned e).filter (fun f => takesUp path excluded f.1 && q ++ f.1 != p) →
      ∃ files' q', scan d' path excluded = .ok files' ∧ d'.placeOf? path = some q' ∧
        files'.filter (fun f => q' ++ f.names != p) =
          (((scanned e).filter fun f => takesUp path excluded f.1).map fun f : Place × Bytes =>
            (⟨Path.joinAll path f.1, f.1, f.2⟩ : SourceFile)).filter fun f => q' ++ f.names != p := by
    intro e' hat' hsame
    have hl' := hlocate e' hat'
    refine ⟨_, q, scan_eq_ok_iff.mpr ⟨q, e', hl', rfl⟩, Disk.placeOf?_eq_some hl', ?_⟩
    rw [List.filter_map, List.filter_map, List.filter_filter, List.filter_filter]
    simp only [Function.comp_def, Bool.and_comm _ (takesUp _ _ _)]
    rw [hsame]
  cases e with
  | file bytes =>
    by_cases hq : q = p
    · -- The path of the scan is that of the helper file.
      subst hq
      refine hfound _ (sightAt?_eq_content.mp hw.stored) ?_
      simp [scanned]
    · exact hfound _ (sightAt?_eq_content.mp (hw.kept q _ hq (sightAt?_eq_content.mpr hat))) rfl
  | dir entries =>
    obtain ⟨keep, hblind, hkeep⟩ := exists_blind path excluded p q
    obtain ⟨entries', hat', hwalk⟩ := hw.walks _ keep hblind q entries hat
    have hfilter : ∀ es, (scanned (.dir es)).filter (fun f => keep (q ++ f.1)) =
        (scanned (.dir es)).filter fun f => takesUp path excluded f.1 && q ++ f.1 != p := fun es =>
      List.filter_congr fun f hf => hkeep f.1 (filesBelow_entered _ _ f hf).1
    refine hfound _ hat' ?_
    rw [← hfilter, ← hfilter]
    exact hwalk

namespace Generation

/-- A source file that a run reads, with the path of the walk that finds it. -/
structure Reading where
  walk : String
  file : SourceFile

/-- The files that are found in the source directory. -/
def sourceReadings (c : Config) (r : Registry) (files : List SourceFile) : List Reading :=
  files.map fun f => ⟨Path.join (root c r) c.sourceDir, f⟩

/-- The files that are found in the directories that are only indexed. -/
def indexReadings (c : Config) (r : Registry) (more : List (List SourceFile)) : List Reading :=
  (c.indexPaths.zip more).flatMap fun w => w.2.map fun f => ⟨Path.join (root c r) w.1, f⟩

/-- The files that a run reads, in the order in which it reads them. -/
def readings (c : Config) (r : Registry) (files : List SourceFile) (more : List (List SourceFile)) :
    List Reading := sourceReadings c r files ++ indexReadings c r more

/-- Whether a file that is read stands at the place of the helper file. -/
def Reading.isHelper (c : Config) (r : Registry) (d : Disk) (x : Reading) : Bool :=
  (d.placeOf? x.walk).map (· ++ x.file.names) == d.placeOf? (Path.join (root c r) c.output)

/-- What a run on a disk reads at the place of the helper file has no effect: it can be analysed, each
class that it declares is declared by a file in front of it, and it is no facade. The place is that
in another tree, in which the helper file has been written. -/
structure IdleHelper [Recovery] (c : Config) (r : Registry) (d' d : Disk) : Prop where
  analysed : ∀ files more, Scans c r d files more → ∀ x ∈ readings c r files more,
    x.isHelper c r d' = true → ∃ facts, x.file.facts? (root c r) = some facts
  repeats : ∀ files more, Scans c r d files more → ∀ before x after,
    readings c r files more = before ++ x :: after → x.isHelper c r d' = true →
    ∀ key, x.file.Declares (root c r) key → ∃ y ∈ before, y.file.Declares (root c r) key
  unmarked : ∀ files more index, Scans c r d files more → indexOf? c r files more = some index →
    ∀ f ∈ files, (Reading.mk (Path.join (root c r) c.sourceDir) f).isHelper c r d' = true →
    facadeOf? c index f = none

section

variable {c : Config} {r : Registry} {d d' : Disk} {p : Place} {content : Bytes} {files : List SourceFile}
  {more : List (List SourceFile)} {index : ClassIndex}

/-- The walk of the source directory does not find the helper file that has been written. -/
def OutsideSources (c : Config) (r : Registry) (d' d : Disk) : Prop :=
  ∀ files more, Scans c r d files more → ∀ x ∈ sourceReadings c r files, x.isHelper c r d' = false

/-- A helper file that only the walks of indexed directories read has no effect, if it can be analysed
and scanned files declare its classes: these come first. -/
theorem IdleHelper.of_indexed [Recovery] (hsource : OutsideSources c r d' d)
    (hindexed : ∀ files more, Scans c r d files more → ∀ x ∈ indexReadings c r more,
      x.isHelper c r d' = true → (∃ facts, x.file.facts? (root c r) = some facts) ∧
        ∀ key, x.file.Declares (root c r) key → ∃ f ∈ files, f.Declares (root c r) key) :
    IdleHelper c r d' d where
  analysed files more hscans x hx hhelper := by
    rcases List.mem_append.mp hx with hx | hx
    · rw [hsource files more hscans x hx] at hhelper
      cases hhelper
    · exact (hindexed files more hscans x hx hhelper).1
  repeats files more hscans before x after heq hhelper key hkey := by
    have hnew : x ∉ sourceReadings c r files := by
      intro hx
      rw [hsource files more hscans x hx] at hhelper
      cases hhelper
    have hfound : x ∈ indexReadings c r more := by
      have hx : x ∈ readings c r files more := by simp [heq]
      exact (List.mem_append.mp hx).resolve_left hnew
    -- So all scanned files are read in front of it.
    have hfront : sourceReadings c r files <+: before := by
      have hall : sourceReadings c r files <+: readings c r files more := List.prefix_append _ _
      have hread : before ++ [x] <+: readings c r files more := ⟨after, by simp [heq]⟩
      rcases List.prefix_or_prefix_of_prefix hall hread with h | h
      · rcases List.prefix_concat_iff.mp h with h | h
        · exact absurd (h ▸ List.mem_concat_self) hnew
        · exact h
      · exact absurd (h.subset List.mem_concat_self) hnew
    obtain ⟨f, hf, hdeclares⟩ := (hindexed files more hscans x hfound hhelper).2 key hkey
    exact ⟨_, hfront.subset (List.mem_map_of_mem hf), hdeclares⟩
  unmarked files more index hscans _ f hf hhelper := by
    rw [hsource files more hscans _ (List.mem_map_of_mem hf)] at hhelper
    cases hhelper

/-- A helper file that no walk reads has no effect. -/
theorem IdleHelper.of_unread [Recovery] (h : ∀ files more, Scans c r d files more →
    ∀ x ∈ readings c r files more, x.isHelper c r d' = false) : IdleHelper c r d' d := by
  refine .of_indexed (fun files more hscans x hx => h files more hscans x (List.mem_append_left _ hx))
    fun files more hscans x hx hhelper => ?_
  rw [h files more hscans x (List.mem_append_right _ hx)] at hhelper
  cases hhelper

/-! ## The walks of the second run -/

theorem isHelper_eq {path : String} {q : Place} (hp : d.placeOf? (Path.join (root c r) c.output) = some p)
    (hq : d.placeOf? path = some q) (f : SourceFile) :
    Reading.isHelper c r d ⟨path, f⟩ = (q ++ f.names == p) := by
  simp [Reading.isHelper, hp, hq]

/-- A walk of the second run finds what the one of the first run found, but for the helper file. -/
theorem scanAt_again {path : String} {excluded : List (List Glob.Token)}
    (hw : Written d d' (Path.join (root c r) c.output) p content) (h : scanAt d path excluded = .ok files) :
    ∃ files', scanAt d' path excluded = .ok files' ∧
      files'.filter (fun f => !Reading.isHelper c r d' ⟨path, f⟩) =
        files.filter fun f => !Reading.isHelper c r d' ⟨path, f⟩ := by
  obtain ⟨files', q, hscan, hq, hsame⟩ := scan_again hw (scanAt_eq_ok_iff.mp h)
  refine ⟨files', scanAt_eq_ok_iff.mpr hscan, ?_⟩
  simpa only [isHelper_eq (Disk.placeOf?_eq_some hw.locate) hq, bne] using hsame

theorem scans_again (hw : Written d d' (Path.join (root c r) c.output) p content)
    (h : Scans c r d files more) :
    ∃ files' more', Scans c r d' files' more' ∧
      (sourceReadings c r files').filter (fun x => !x.isHelper c r d') =
        (sourceReadings c r files).filter (fun x => !x.isHelper c r d') ∧
      (indexReadings c r more').filter (fun x => !x.isHelper c r d') =
        (indexReadings c r more).filter fun x => !x.isHelper c r d' := by
  obtain ⟨excluded, hpatterns, hfiles⟩ := h.sources
  obtain ⟨files', hfiles', hsame⟩ := scanAt_again hw hfiles
  have hmore : ∃ more', List.Forall₂ (fun dir found => scanAt d' (Path.join (root c r) dir) [] = .ok found)
      c.indexPaths more' ∧ (indexReadings c r more').filter (fun x => !x.isHelper c r d') =
        (indexReadings c r more).filter fun x => !x.isHelper c r d' := by
    unfold indexReadings
    have hindexed := h.indexed
    clear h
    generalize c.indexPaths = dirs at hindexed
    induction hindexed with
    | nil => exact ⟨[], .nil, rfl⟩
    | @cons dir found dirs more hscan _ ih =>
      obtain ⟨found', hscan', hsame⟩ := scanAt_again hw hscan
      obtain ⟨more', hmore, heq⟩ := ih
      refine ⟨found' :: more', .cons hscan' hmore, ?_⟩
      simp only [List.zip_cons_cons, List.flatMap_cons, List.filter_append, heq, List.filter_map,
        Function.comp_def, hsame]
  obtain ⟨more', hindexed, heq⟩ := hmore
  refine ⟨files', more', ⟨⟨excluded, hpatterns, hfiles'⟩, hindexed⟩, ?_, heq⟩
  simp only [sourceReadings, List.filter_map, Function.comp_def, hsame]

/-- What the walks of a run find is known from the disk. -/
theorem Scans.unique {files' : List SourceFile} {more' : List (List SourceFile)}
    (h : Scans c r d files more) (h' : Scans c r d files' more') : files = files' ∧ more = more' := by
  obtain ⟨excluded, hpatterns, hfiles⟩ := h.sources
  obtain ⟨excluded', hpatterns', hfiles'⟩ := h'.sources
  rw [hpatterns, Except.ok.injEq] at hpatterns'
  rw [← hpatterns', hfiles, Except.ok.injEq] at hfiles'
  refine ⟨hfiles', List.right_unique_forall₂' (fun dir found found' hfound hfound' => ?_) h.indexed h'.indexed⟩
  rwa [hfound, Except.ok.injEq] at hfound'

theorem OutsideSources.files_eq (h : OutsideSources c r d' d) (hscans : Scans c r d files more) :
    ((sourceReadings c r files).filter fun x => !x.isHelper c r d').map (·.file) = files := by
  rw [List.filter_eq_self.mpr fun x hx => by rw [h files more hscans x hx]; rfl]
  simp [sourceReadings, Function.comp_def]

/-- Outside the source directory the helper file is none of the scanned files. -/
theorem OutsideSources.scans_eq {files' : List SourceFile} {more' : List (List SourceFile)}
    (hbefore : OutsideSources c r d' d) (hafter : OutsideSources c r d' d')
    (hw : Written d d' (Path.join (root c r) c.output) p content) (hscans : Scans c r d files more)
    (hscans' : Scans c r d' files' more') : files' = files := by
  obtain ⟨again, more'', hagain, hsources, -⟩ := scans_again hw hscans
  rw [(hscans'.unique hagain).1, ← hafter.files_eq hagain, hsources, hbefore.files_eq hscans]

/-- What stands at the place of the helper file is not scanned before the run if it is not scanned
afterwards. -/
theorem OutsideSources.before (h : OutsideSources c r d' d') (hd : d.top.Proper) (hd' : d'.top.Proper)
    (hw : Written d d' (Path.join (root c r) c.output) p content) : OutsideSources c r d' d := by
  intro files more hscans x hx
  obtain ⟨f, hf, rfl⟩ := List.mem_map.mp hx
  obtain ⟨excluded, hpatterns, hfiles⟩ := hscans.sources
  obtain ⟨files', more', hscans', -⟩ := scans_again hw hscans
  obtain ⟨excluded', hpatterns', hfiles'⟩ := hscans'.sources
  rw [hpatterns, Except.ok.injEq] at hpatterns'
  subst hpatterns'
  obtain ⟨q, e, hl, -⟩ := scan_eq_ok_iff.mp (scanAt_eq_ok_iff.mp hfiles)
  obtain ⟨e', hl'⟩ := hw.locates hl
  have hplace := fun g => isHelper_eq (Disk.placeOf?_eq_some hw.locate) (Disk.placeOf?_eq_some hl') g
  rw [hplace, beq_eq_false_iff_ne]
  -- The written file would be found under the same names.
  intro hp
  obtain ⟨-, -, htakes⟩ := (mem_scan_iff hd hl (scanAt_eq_ok_iff.mp hfiles)).mp hf
  have hstored : d'.top.at? (q ++ f.names) = some (.file content) :=
    hp ▸ sightAt?_eq_content.mp hw.stored
  have hfound : (⟨Path.joinAll (Path.join (root c r) c.sourceDir) f.names, f.names, content⟩ : SourceFile) ∈
      files' := (mem_scan_iff hd' hl' (scanAt_eq_ok_iff.mp hfiles')).mpr ⟨rfl, hstored, htakes⟩
  have hunread := h files' more' hscans' _ (List.mem_map_of_mem hfound)
  rw [hplace, beq_eq_false_iff_ne] at hunread
  exact hunread hp

/-- Each file that is read is found by the walk of its path. -/
theorem exists_scan_of_mem_readings {x : Reading} (hscans : Scans c r d files more)
    (hx : x ∈ readings c r files more) :
    ∃ excluded found, scanAt d x.walk excluded = .ok found ∧ x.file ∈ found := by
  rcases List.mem_append.mp hx with hx | hx
  · obtain ⟨f, hf, rfl⟩ := List.mem_map.mp hx
    obtain ⟨excluded, -, hfiles⟩ := hscans.sources
    exact ⟨excluded, files, hfiles, hf⟩
  · obtain ⟨⟨dir, found⟩, hmem, hx⟩ := List.mem_flatMap.mp hx
    obtain ⟨f, hf, rfl⟩ := List.mem_map.mp hx
    exact ⟨[], found, (List.forall₂_iff_zip.mp hscans.indexed).2 hmem, hf⟩

/-- What is read at the place of the helper file is the helper file. -/
theorem content_of_isHelper {x : Reading} (hd' : d'.top.Proper)
    (hw : Written d d' (Path.join (root c r) c.output) p content) (hscans : Scans c r d' files more)
    (hx : x ∈ readings c r files more) (hhelper : x.isHelper c r d' = true) : x.file.content = content := by
  obtain ⟨excluded, found, hscan, hf⟩ := exists_scan_of_mem_readings hscans hx
  obtain ⟨q, e, hl, -⟩ := scan_eq_ok_iff.mp (scanAt_eq_ok_iff.mp hscan)
  have hp : q ++ x.file.names = p := by
    rw [← beq_iff_eq, ← isHelper_eq (Disk.placeOf?_eq_some hw.locate) (Disk.placeOf?_eq_some hl)]
    exact hhelper
  obtain ⟨-, hat, -⟩ := (mem_scan_iff hd' hl (scanAt_eq_ok_iff.mp hscan)).mp hf
  rw [hp, sightAt?_eq_content.mp hw.stored, Option.some.injEq, Entry.file.injEq] at hat
  exact hat.symm

/-! ## The index of the second run -/

theorem facts_of_addSources? [Recovery] {base : String} : ∀ {fs : List SourceFile} {I J : ClassIndex},
    I.addSources? base fs = some J → ∀ f ∈ fs, ∃ facts, f.facts? base = some facts
  | f :: fs, I, J, h, g, hg => by
    simp only [ClassIndex.addSources?, ClassIndex.addSource?] at h
    obtain ⟨next, hnext, hrest⟩ := Option.bind_eq_some_iff.mp h
    obtain ⟨facts, hfacts, -⟩ := Option.map_eq_some_iff.mp hnext
    rcases List.mem_cons.mp hg with rfl | hg
    · exact ⟨facts, hfacts⟩
    · exact facts_of_addSources? hrest g hg

theorem exists_addSources? [Recovery] {base : String} : ∀ {fs : List SourceFile} (I : ClassIndex),
    (∀ f ∈ fs, ∃ facts, f.facts? base = some facts) → ∃ J, I.addSources? base fs = some J
  | [], I, _ => ⟨I, rfl⟩
  | f :: fs, I, h => by
    obtain ⟨facts, hfacts⟩ := h f List.mem_cons_self
    obtain ⟨J, hJ⟩ := exists_addSources? (I.addFile facts) fun g hg => h g (List.mem_cons_of_mem _ hg)
    refine ⟨J, ?_⟩
    rw [SourceFile.facts?] at hfacts
    simpa only [ClassIndex.addSources?, ClassIndex.addSource?, hfacts, Option.map_some, Option.bind_some] using hJ

/-- Sources add the classes that they declare. -/
theorem decls_addSources? [Recovery] {base : String} : ∀ {fs : List SourceFile} {I J : ClassIndex},
    I.addSources? base fs = some J →
    J.decls = (I.insertAll (fs.flatMap (SourceFile.classes base))).decls
  | [], I, J, h => by
    obtain rfl : I = J := by simpa [ClassIndex.addSources?] using h
    rfl
  | f :: fs, I, J, h => by
    simp only [ClassIndex.addSources?, ClassIndex.addSource?] at h
    obtain ⟨next, hnext, hrest⟩ := Option.bind_eq_some_iff.mp h
    obtain ⟨facts, hfacts, rfl⟩ := Option.map_eq_some_iff.mp hnext
    have hclasses : f.classes base = facts.classes := SourceFile.classes_of_facts hfacts
    have hfile : (I.addFile facts).decls = (I.insertAll facts.classes).decls :=
      ClassIndex.decls_insertAll_congr (by rfl)
    rw [decls_addSources? hrest, List.flatMap_cons, hclasses, ClassIndex.insertAll_append,
      ClassIndex.decls_insertAll_congr hfile]

theorem map_file_readings (h : Scans c r d files more) :
    (readings c r files more).map (·.file) = files ++ more.flatten := by
  have hmore : ∀ {dirs : List String}, dirs.length = more.length →
      ((dirs.zip more).flatMap fun w => w.2.map fun f => (⟨Path.join (root c r) w.1, f⟩ : Reading)).map
        (·.file) = more.flatten := by
    intro dirs hlength
    have hzip : (dirs.zip more).map Prod.snd = more := List.map_snd_zip (by omega)
    conv_rhs => rw [← hzip]
    simp [List.flatMap_def, Function.comp_def]
  rw [readings, List.map_append, indexReadings, hmore h.indexed.length_eq]
  simp [sourceReadings, Function.comp_def]

theorem decls_indexOf? [Recovery] (hscans : Scans c r d files more)
    (h : indexOf? c r files more = some index) :
    index.decls = (({} : ClassIndex).insertAll ((readings c r files more).flatMap fun x =>
      x.file.classes (root c r))).decls := by
  rw [decls_addSources? h, ← map_file_readings hscans, List.flatMap_map]

/-- Where the helper file has no effect, the index is that of the other files. -/
theorem IdleHelper.decls_eq [Recovery] (hidle : IdleHelper c r d' d) (hscans : Scans c r d files more)
    (h : indexOf? c r files more = some index) :
    index.decls = (({} : ClassIndex).insertAll (((readings c r files more).filter fun x =>
      !x.isHelper c r d').flatMap fun x => x.file.classes (root c r))).decls := by
  rw [decls_indexOf? hscans h]
  refine ClassIndex.decls_insertAll_flatMap fun before x after heq hx cls hcls => .inr ?_
  exact hidle.repeats files more hscans before x after heq hx (ClassIndex.keyOf cls) ⟨cls, hcls, rfl⟩

/-- What a run decides about its files is what it decides about the files besides the helper file. -/
theorem IdleHelper.items_eq [Recovery] (hidle : IdleHelper c r d' d) (hscans : Scans c r d files more)
    (h : indexOf? c r files more = some index) :
    itemsUntilError c r index files = itemsUntilError c r index
      (((sourceReadings c r files).filter fun x => !x.isHelper c r d').map (·.file)) := by
  rw [itemsUntilError_filter (hidle.unmarked files more index hscans h)]
  simp [sourceReadings, List.filter_map, Function.comp_def]

/-- The second run gathers the same declarations, and decides the same. -/
theorem gather_again [Recovery] (hw : Written d d' (Path.join (root c r) c.output) p content)
    (hbefore : IdleHelper c r d' d) (hafter : IdleHelper c r d' d')
    (h : gather c r d = .ok (files, index)) :
    ∃ files' index', gather c r d' = .ok (files', index') ∧ index'.decls = index.decls ∧
      itemsUntilError c r index' files' = itemsUntilError c r index files ∧
      (OutsideSources c r d' d → OutsideSources c r d' d' → files' = files) := by
  obtain ⟨more, hscans, hindex⟩ := scans_of_gather h
  obtain ⟨files', more', hscans', hsources, hindexed⟩ := scans_again hw hscans
  have hreadings : (readings c r files' more').filter (fun x => !x.isHelper c r d') =
      (readings c r files more).filter fun x => !x.isHelper c r d' := by
    rw [readings, readings, List.filter_append, List.filter_append, hsources, hindexed]
  -- Each file of the second run is one of the first run or the helper file.
  have hfacts : ∀ x ∈ readings c r files' more', ∃ facts, x.file.facts? (root c r) = some facts := by
    intro x hx
    cases hhelper : x.isHelper c r d' with
    | true => exact hafter.analysed files' more' hscans' x hx hhelper
    | false =>
      have hmem : x ∈ (readings c r files more).filter fun x => !x.isHelper c r d' := by
        rw [← hreadings]
        exact List.mem_filter.mpr ⟨hx, by simp [hhelper]⟩
      have hfile := List.mem_map_of_mem (f := (·.file)) (List.mem_filter.mp hmem).1
      rw [map_file_readings hscans] at hfile
      exact facts_of_addSources? hindex x.file hfile
  obtain ⟨index', hindex'⟩ : ∃ index', indexOf? c r files' more' = some index' := by
    refine exists_addSources? {} fun f hf => ?_
    rw [← map_file_readings hscans'] at hf
    obtain ⟨x, hx, rfl⟩ := List.mem_map.mp hf
    exact hfacts x hx
  have hdecls : index'.decls = index.decls := by
    rw [hafter.decls_eq hscans' hindex', hbefore.decls_eq hscans hindex, hreadings]
  refine ⟨files', index', gather_eq_ok hscans' hindex', hdecls, ?_,
    fun hd hd' => hd.scans_eq hd' hw hscans hscans'⟩
  rw [hafter.items_eq hscans' hindex', hbefore.items_eq hscans hindex, hsources,
    itemsUntilError_congr_index hdecls]

/-! ## The second run -/

theorem run_omissions [Recovery] (c : Config) (r : Registry) (d : Disk) :
    (run c r d).omissions = (plan c r d).1 := by
  unfold run
  split
  · rename_i hp
    rw [hp]
  · rename_i hp
    rw [hp]
    split <;> rfl

theorem plan_omissions [Recovery] (h : gather c r d = .ok (files, index)) :
    (plan c r d).1 = omissions index (itemsUntilError c r index files).1 := by
  simp only [plan, h]

/-- A run whose helper file has no effect on what it reads succeeds once more, with the same facades and
the same warnings. The helper file keeps its bytes, and so does all else on the disk. If the source
directory does not have the helper file, the whole report is the same. -/
theorem run_again_of_idle [Recovery] {report : Report} (h : (run c r d).result = .ok report)
    (hbefore : IdleHelper c r (run c r d).disk d)
    (hafter : IdleHelper c r (run c r d).disk (run c r d).disk) :
    ∃ again, (run c r (run c r d).disk).result = .ok again ∧ again.output = report.output ∧
      again.facades = report.facades ∧
      (run c r (run c r d).disk).omissions = (run c r d).omissions ∧
      (∃ bytes, (run c r d).disk.read report.output = .ok bytes ∧
        (run c r (run c r d).disk).disk.read report.output = .ok bytes) ∧
      (∀ q, (run c r (run c r d).disk).disk.top.sightAt? q = (run c r d).disk.top.sightAt? q) ∧
      (OutsideSources c r (run c r d).disk d →
        OutsideSources c r (run c r d).disk (run c r d).disk → again = report) := by
  obtain ⟨_, hplan, rfl, hfirst⟩ := plan_of_run_ok h
  obtain ⟨files, index, hg, hnone, rfl⟩ := gather_of_plan_ok hplan
  obtain ⟨p, hw⟩ := exists_written hfirst
  obtain ⟨files', index', hg', hdecls, hitems, hunread⟩ := gather_again hw hbefore hafter hg
  have hplan' := plan_ok hg' (hitems ▸ hnone)
  rw [hitems] at hplan'
  -- It writes what is there already.
  obtain ⟨d'', hsecond, hhere, hstores⟩ :=
    @writeHelper_again c _ _ (planOf c r files (itemsUntilError c r index files).1).stubs _ _ _ hw
  obtain ⟨hresult, hdisk⟩ := run_result_ok hplan' hsecond
  refine ⟨_, hresult, rfl, rfl, ?_, ⟨_, hw.read, ?_⟩, fun q => ?_, fun hd hd' => ?_⟩
  · rw [run_omissions, run_omissions, plan_omissions hg', plan_omissions hg, hitems, omissions_congr hdecls]
  · obtain ⟨_, hw'⟩ := exists_written hsecond
    rw [hdisk]
    exact hw'.read
  · rw [hdisk]
    by_cases hq : q = p
    · rw [hq, hstores.written, hw.stored]
    · exact hstores.frame q hq
  · rw [hunread hd hd']

/-- The walk of a directory that is only indexed finds the helper file. -/
def ReadByIndex (c : Config) (r : Registry) (d : Disk) : Prop :=
  ∃ files more, Scans c r d files more ∧ ∃ x ∈ indexReadings c r more, x.isHelper c r d = true

/-- A helper file that can be read declares the facades of the report. -/
theorem helper_declares_facades [Recovery] {report : Report} {f : SourceFile} {base : String}
    (h : (run c r d).result = .ok report) (hg : gather c r d = .ok (files, index))
    (hw : ∀ s ∈ report.facades, s.Writable index)
    (hlegible : ∀ s ∈ report.facades, ∀ m ∈ (index.methodsOf s.service).filter Method.isForwardable,
      m.Legible index)
    (hread : (run c r d).disk.read report.output = .ok f.content) :
    (∃ facts, f.facts? base = some facts) ∧
      ∀ key, f.Declares base key → ∃ s ∈ report.facades, classKey s.cls = key := by
  obtain ⟨fronts, hperm, hwritable, hwritten⟩ := exists_fronts h hg hw
  rw [hread, Except.ok.injEq] at hwritten
  obtain ⟨facts, hfacts, -, houtlines⟩ := (fileFacts?_helperText_iff hwritable
    ((Path.stripPrefix? f.path base).getD f.path)).mpr ((forall_fronts_iff hperm).mpr hlegible)
  rw [← hwritten] at hfacts
  refine ⟨⟨facts, hfacts⟩, ?_⟩
  rintro key ⟨decl, hdecl, rfl⟩
  have hclasses : f.classes base = facts.classes := SourceFile.classes_of_facts hfacts
  have hmem : decl.outline ∈ fronts.map (Front.outline index) :=
    houtlines ▸ List.mem_map_of_mem (hclasses ▸ hdecl)
  obtain ⟨front, hfront, heq⟩ := List.mem_map.mp hmem
  -- The class has the names of a front, and this those of a facade.
  have hname : qualifiedName (some front.namespaceName) front.shortName = decl.fqn := by
    rw [← decl.qualifiedName_getD]
    exact congrArg (fun o : ClassOutline => qualifiedName (some o.namespaceName) o.name) heq
  have hreported := hperm.subset (List.mem_map_of_mem hfront)
  obtain ⟨s, hs, hsame⟩ := List.mem_map.mp hreported
  refine ⟨s, hs, ?_⟩
  have hcls : s.cls = decl.fqn := (congrArg Prod.fst hsame).trans hname
  rw [hcls]
  rfl

/-- Outside the source directory a helper file is stable: the second run reports the same and leaves all
bytes on the disk as they are. If a directory that is only indexed has it, it is enough that the helper
file can be read (`FacadeSummary.IsOrdinary.writable` says when) and that scanned files declare the facades:
the first declaration wins. -/
theorem run_again [Recovery] {report : Report} (hproper : d.top.Proper)
    (h : (run c r d).result = .ok report) (hg : gather c r d = .ok (files, index))
    (hbefore : IdleHelper c r (run c r d).disk d)
    (hsource : OutsideSources c r (run c r d).disk (run c r d).disk)
    (hindexed : ReadByIndex c r (run c r d).disk → ∀ s ∈ report.facades, s.Writable index ∧
      (∀ m ∈ (index.methodsOf s.service).filter Method.isForwardable, m.Legible index) ∧
      ∃ f ∈ files, f.Declares (root c r) (classKey s.cls)) :
    (run c r (run c r d).disk).result = .ok report ∧
      (run c r (run c r d).disk).omissions = (run c r d).omissions ∧
      (∃ bytes, (run c r d).disk.read report.output = .ok bytes ∧
        (run c r (run c r d).disk).disk.read report.output = .ok bytes) ∧
      ∀ q, (run c r (run c r d).disk).disk.top.sightAt? q = (run c r d).disk.top.sightAt? q := by
  obtain ⟨pl, hplan, hreport, hfirst⟩ := plan_of_run_ok h
  obtain ⟨_, _, -, -, hpl⟩ := gather_of_plan_ok hplan
  obtain ⟨p, hw⟩ := exists_written hfirst
  have houtput : pl.report.output = Path.join (root c r) c.output := by rw [hpl]; rfl
  rw [houtput] at hw
  obtain ⟨more, hscans, -⟩ := scans_of_gather hg
  have hunscanned : OutsideSources c r (run c r d).disk d :=
    hsource.before hproper (run_proper c r hproper) hw
  have hafter : IdleHelper c r (run c r d).disk (run c r d).disk := by
    refine .of_indexed hsource fun files' more' hscans' x hx hhelper => ?_
    have hfacades := hindexed ⟨files', more', hscans', x, hx, hhelper⟩
    have hcontent := content_of_isHelper (run_proper c r hproper) hw hscans'
      (List.mem_append_right _ hx) hhelper
    have hread : (run c r d).disk.read report.output = .ok x.file.content := by
      rw [hcontent, ← hreport, houtput]
      exact hw.read
    obtain ⟨hfacts, hdeclared⟩ := @helper_declares_facades c r d files index _ report x.file (root c r)
      h hg (fun s hs => (hfacades s hs).1) (fun s hs => (hfacades s hs).2.1) hread
    refine ⟨hfacts, fun key hkey => ?_⟩
    obtain ⟨s, hs, rfl⟩ := hdeclared key hkey
    rw [hunscanned.scans_eq hsource hw hscans hscans']
    exact (hfacades s hs).2.2
  obtain ⟨again, hagain, -, -, homissions, hbytes, hsights, hsame⟩ := run_again_of_idle h hbefore hafter
  exact ⟨hsame hunscanned hsource ▸ hagain, homissions, hbytes, hsights⟩

end

/-! ### The shop, run twice -/

/-- The helper file of the shop. -/
def shopHelper (stubs : List StubClass) : SourceFile :=
  ⟨"./lib/helper.php", ["helper.php"], Utf8.bytesOf (helperText stubs)⟩

/-- The shop after its helper file has been written. -/
def shopAfter (stubs : List StubClass) : Disk where
  top := .dir [("src", folder shopFiles), ("lib", folder (shopTypes ++ [shopHelper stubs]))]

theorem shop_written (stubs : List StubClass) :
    (writeHelper shopConfig "./lib/helper.php" stubs).run.run shopDisk = (.ok (), shopAfter stubs) := rfl

theorem shop_scans_after (stubs : List StubClass) :
    Scans shopConfig {} (shopAfter stubs) shopFiles [shopTypes ++ [shopHelper stubs]] where
  sources := ⟨[], rfl, scanAt_folder (by rfl) (by decide +kernel) (by decide +kernel)⟩
  indexed := by
    refine .cons (scanAt_folder (by rfl) (by simp [shopHelper, shopTypes, joined]) ?_) .nil
    rw [List.all_append, Bool.and_eq_true]
    refine ⟨by decide +kernel, ?_⟩
    simp only [shopHelper, List.all_cons, List.all_nil, Bool.and_true]
    decide +kernel

theorem shop_disk [Recovery] : ∃ stubs, (run shopConfig {} shopDisk).disk = shopAfter stubs := by
  have houtput : Path.join (root shopConfig {}) shopConfig.output = "./lib/helper.php" := by decide
  have hplan := plan_ok shop_gather (Prod.mk.inj shop_items).2
  exact ⟨_, (run_result_ok hplan (houtput ▸ shop_written _)).2⟩

theorem shopDisk_proper : shopDisk.top.Proper := by
  simp [shopDisk, folder, shopFiles, shopTypes, joined, proper_dir_iff, proper_file]

/-- Of the places that the walks of the shop lead to, that of the helper file is the one. -/
theorem shop_isHelper (stubs : List StubClass) (f : SourceFile) :
    Reading.isHelper shopConfig {} (shopAfter stubs) ⟨Path.join (root shopConfig {}) "src", f⟩ = false ∧
    (Reading.isHelper shopConfig {} (shopAfter stubs) ⟨Path.join (root shopConfig {}) "lib", f⟩ = true ↔
      f.names = ["helper.php"]) := by
  have hsource : (shopAfter stubs).placeOf? (Path.join (root shopConfig {}) "src") = some ["src"] := by rfl
  have hlib : (shopAfter stubs).placeOf? (Path.join (root shopConfig {}) "lib") = some ["lib"] := by rfl
  have hhelper : (shopAfter stubs).placeOf? (Path.join (root shopConfig {}) shopConfig.output) =
      some ["lib", "helper.php"] := by rfl
  rw [isHelper_eq hhelper hsource, isHelper_eq hhelper hlib]
  simp

theorem shop_outside (stubs : List StubClass) :
    OutsideSources shopConfig {} (shopAfter stubs) (shopAfter stubs) := by
  intro files more _ x hx
  obtain ⟨f, -, rfl⟩ := List.mem_map.mp hx
  exact (shop_isHelper stubs f).1

/-- Before the run there is no helper file. -/
theorem shop_idle [Recovery] (stubs : List StubClass) :
    IdleHelper shopConfig {} (shopAfter stubs) shopDisk := by
  refine .of_unread fun files more hscans x hx => ?_
  obtain ⟨rfl, rfl⟩ := hscans.unique (shop_scans (by decide) rfl rfl rfl)
  rcases List.mem_append.mp hx with hx | hx
  · obtain ⟨f, -, rfl⟩ := List.mem_map.mp hx
    exact (shop_isHelper stubs f).1
  · have hnames : ∀ f ∈ shopTypes, f.names ≠ ["helper.php"] := by decide
    simp only [indexReadings, shopConfig, List.zip_cons_cons, List.zip_nil_left, List.flatMap_cons,
      List.flatMap_nil, List.append_nil, List.mem_map] at hx
    obtain ⟨f, hf, rfl⟩ := hx
    exact Bool.eq_false_iff.mpr fun h => hnames f hf ((shop_isHelper stubs f).2.mp h)

/-- The facades of the shop are declared by files that are scanned. -/
theorem shop_declares [Recovery] {s : FacadeSummary} (hs : s ∈ shopFacades) :
    ∃ f ∈ shopFiles, f.Declares (root shopConfig {}) (classKey s.cls) := by
  have hroot : root shopConfig {} = "." := by decide
  have hfacts := shop_facts
  simp only [shopFiles, shopTypes, shopFacts, List.cons_append, List.nil_append, List.forall₂_cons] at hfacts
  obtain ⟨hcart, hdesk, -⟩ := hfacts
  have hcartKey : ∃ d ∈ (shopFacade "A" "Cart" "Svc" "src/Cart.php").classes,
      ClassIndex.keyOf d = classKey "A\\Cart" := ⟨_, List.mem_cons_self, by rfl⟩
  have hdeskKey : ∃ d ∈ (shopFacade "B" "Desk" "Old" "src/Desk.php").classes,
      ClassIndex.keyOf d = classKey "B\\Desk" := ⟨_, List.mem_cons_self, by rfl⟩
  rw [hroot]
  simp only [shopFacades, List.mem_cons, List.not_mem_nil, or_false] at hs
  obtain rfl | rfl | rfl := hs
  · exact ⟨_, List.mem_cons_self, .of_facts hcart hcartKey⟩
  · exact ⟨_, List.mem_cons_of_mem _ List.mem_cons_self, .of_facts hdesk hdeskKey⟩
  · exact ⟨_, List.mem_cons_self, .of_facts hcart hcartKey⟩

/-- In the shop the second run indexes the helper file, in a directory behind the scanned files, and writes
the same bytes. -/
theorem run_again_shop : ReadByIndex shopConfig {} (@run .nothing shopConfig {} shopDisk).disk ∧
    ∃ report bytes, report.facades = shopFacades ∧
      (@run .nothing shopConfig {} shopDisk).result = .ok report ∧
      (@run .nothing shopConfig {} (@run .nothing shopConfig {} shopDisk).disk).result = .ok report ∧
      (@run .nothing shopConfig {} shopDisk).disk.read report.output = .ok bytes ∧
      (@run .nothing shopConfig {} (@run .nothing shopConfig {} shopDisk).disk).disk.read report.output =
        .ok bytes := by
  let recovery : Recovery := .nothing
  obtain ⟨report, hreport, -, -, -, hfacades⟩ := shop_report
  obtain ⟨stubs, hdisk⟩ := shop_disk
  obtain ⟨hagain, -, ⟨bytes, hread, hread'⟩, -⟩ := run_again shopDisk_proper hreport shop_gather
    (hdisk ▸ shop_idle stubs) (hdisk ▸ shop_outside stubs) fun _ s hs =>
      have hmem : s ∈ shopFacades := hfacades ▸ hs
      ⟨(shop_ordinary hmem).writable shop_index shop_accepted,
        fun m hm => shop_legible (shop_methods hmem m hm), shop_declares hmem⟩
  refine ⟨?_, report, bytes, hfacades, hreport, hagain, hread, hread'⟩
  rw [hdisk]
  refine ⟨_, _, shop_scans_after stubs, _, ?_, (shop_isHelper stubs (shopHelper stubs)).2.mpr rfl⟩
  simp [indexReadings, shopConfig]

end Generation

end FacadeStubs
