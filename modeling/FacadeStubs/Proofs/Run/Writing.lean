import FacadeStubs.Proofs.Run.Grouping

/-!
# Both ways of writing end alike

A helper file is written in place, or by way of a temporary file that is renamed. The second way makes
one file or two before it can fail, and it asks the disk other questions than the first. Where a file
can be stored (`Storable`), either way stores it in the same place; where it cannot, the first way has
touched nothing and the second takes back what it has made.

* `writeHelper_leaves`: the tree after a helper file was written, or could not be;
* `writeHelper_alike`: either way fails or succeeds as the other does, and leaves the same tree;
* `run_alike`: so do runs that differ in the way of writing only.

Trees are compared by what they hold at each place: directories, and files with their bytes. The errors
of two runs that cannot write may have different causes, since the ways fail at different operations.
-/
namespace FacadeStubs

open Entry FileAction

/-- Errors of one kind, about the same thing: of a helper file that cannot be written only the cause may
be another. -/
inductive Error.SameKind : Error → Error → Prop where
  | same (e : Error) : SameKind e e
  | persist (path : String) (cause cause' : FileError) :
      SameKind (.persist path cause) (.persist path cause')

/-- Storing the same bytes in one place gives trees that hold the same. -/
theorem FileAction.Stores.sightAt?_eq {t a b : Entry} {p : Place} {content : Bytes}
    (ha : Stores t a p content) (hb : Stores t b p content) (q : Place) :
    a.sightAt? q = b.sightAt? q := by
  by_cases hq : q = p
  · rw [hq, ha.written, hb.written]
  · rw [ha.frame q hq, hb.frame q hq]

namespace Generation

section Ways

variable {c c' : Config} {r : Registry} {d : Disk} {output : String} {stubs : List StubClass}

/-- The disk once the directories above a helper file were made, as far as they could be. -/
def furnished (d : Disk) (output : String) : Disk :=
  ((createDirectories (Route.ofPath output).parent).run.run d).2

/-- A helper file that was written is stored where its path leads once its directories are there. One
that could not be written has left these directories and nothing else. -/
theorem writeHelper_leaves (c : Config) (output : String) (stubs : List StubClass) (d : Disk) :
    Ends (writeHelper c output stubs) d
      (fun _ d' => ∃ place n, Targets (furnished d output) (Route.ofPath output) place n ∧
        Stores (furnished d output).top d'.top (place ++ [n]) (Utf8.bytesOf (helperText stubs)))
      (fun _ d' => ∀ q, d'.top.sightAt? q = (furnished d output).top.sightAt? q) := by
  unfold writeHelper
  dsimp only
  rw [ends_bind]
  refine (ends_run _ d).mono (fun _ d₁ hrun => ?_) fun _ d₁ hrun => ?_
  · obtain rfl : d₁ = furnished d output := by rw [furnished, hrun]
    split
    · refine (replace_ends _ _ _ _).mono (fun _ d' h => ?_) fun _ d' h => h
      obtain ⟨-, place, n, ht, -, hstores⟩ := h
      exact ⟨place, n, ht, hstores⟩
    · refine (write_ends _ _ _).mono (fun _ d' h => ?_) fun _ d' h => ?_
      · obtain ⟨-, place, n, ht, -, hstores⟩ := h
        exact ⟨place, n, ht, hstores⟩
      · intro q
        rw [h]
  · intro q
    rw [furnished, hrun]

theorem writeHelper_fails (c : Config) (stubs : List StubClass) (h : ¬ Storable d output) :
    ∃ e d', (writeHelper c output stubs).run.run d = (.error e, d') := by
  rcases hrun : (writeHelper c output stubs).run.run d with ⟨e | ⟨⟩, d'⟩
  · exact ⟨e, d', rfl⟩
  · exact absurd (writeHelper_ok_iff.mp ⟨d', hrun⟩) h

/-- Two configs write a helper file alike, whatever way of writing each of them names: both succeed or
both fail, and the trees afterwards hold the same. -/
theorem writeHelper_alike (c c' : Config) (output : String) (stubs : List StubClass) (d : Disk) :
    (∃ a b, (writeHelper c output stubs).run.run d = (.ok (), a) ∧
      (writeHelper c' output stubs).run.run d = (.ok (), b) ∧
      ∀ q, a.top.sightAt? q = b.top.sightAt? q) ∨
    ∃ e e' a b, (writeHelper c output stubs).run.run d = (.error e, a) ∧
      (writeHelper c' output stubs).run.run d = (.error e', b) ∧
      ∀ q, a.top.sightAt? q = b.top.sightAt? q := by
  have hleaves := writeHelper_leaves c output stubs d
  have hleaves' := writeHelper_leaves c' output stubs d
  by_cases hs : Storable d output
  · left
    have hwrites : ∀ c, ∃ d', (writeHelper c output stubs).run.run d = (.ok (), d') := fun _ =>
      writeHelper_ok_iff.mpr hs
    obtain ⟨a, ha⟩ := hwrites c
    obtain ⟨b, hb⟩ := hwrites c'
    obtain ⟨place, n, ht, hstores⟩ := hleaves.ok_of_run ha
    obtain ⟨place', n', ht', hstores'⟩ := hleaves'.ok_of_run hb
    obtain ⟨rfl, rfl⟩ := ht.unique ht'
    exact ⟨a, b, ha, hb, hstores.sightAt?_eq hstores'⟩
  · right
    obtain ⟨e, a, ha⟩ := writeHelper_fails c stubs hs
    obtain ⟨e', b, hb⟩ := writeHelper_fails c' stubs hs
    refine ⟨e, e', a, b, ha, hb, fun q => ?_⟩
    rw [hleaves.err_of_run ha, hleaves'.err_of_run hb]

/-- What a run finds out before it writes does not depend on the way of writing. -/
theorem plan_atomicWrite [Recovery] (c : Config) (r : Registry) (d : Disk) (atomic : Bool) :
    plan { c with atomicWrite := atomic } r d = plan c r d := by
  have hgather : gather { c with atomicWrite := atomic } r d = gather c r d := rfl
  unfold plan
  rw [hgather]
  cases gather c r d with
  | error e => rfl
  | ok found =>
    have hitems : itemsUntilError { c with atomicWrite := atomic } r found.2 found.1 =
        itemsUntilError c r found.2 found.1 := itemsUntilError_congr (by rfl) (by rfl) _ _
    simp only [hitems]
    rfl

/-- Outcomes that differ in the cause of a failed write at most. -/
structure Outcome.Alike (a b : Outcome) : Prop where
  results : (∃ report bytes, a.result = .ok report ∧ b.result = .ok report ∧
      a.disk.read report.output = .ok bytes ∧ b.disk.read report.output = .ok bytes) ∨
    ∃ e e', a.result = .error e ∧ b.result = .error e' ∧ e.SameKind e'
  trees : ∀ q, a.disk.top.sightAt? q = b.disk.top.sightAt? q
  omissions : a.omissions = b.omissions

/-- The way of writing makes no difference to a run. Written by way of a temporary file or in place, it
succeeds both times with the same report and the same helper file, or ends both times with an error of
the same kind. The tree afterwards holds the same directories and the same files with the same bytes,
whatever stood at the path of the helper file or on the way to it. -/
theorem run_alike [Recovery] (c : Config) (r : Registry) (d : Disk) :
    (run { c with atomicWrite := true } r d).Alike (run { c with atomicWrite := false } r d) ∧
    ∀ q bytes, (run { c with atomicWrite := true } r d).disk.top.at? q = some (.file bytes) ↔
      (run { c with atomicWrite := false } r d).disk.top.at? q = some (.file bytes) := by
  suffices halike :
      (run { c with atomicWrite := true } r d).Alike (run { c with atomicWrite := false } r d) by
    refine ⟨halike, fun q bytes => ?_⟩
    rw [← sightAt?_eq_content, ← sightAt?_eq_content, halike.trees]
  unfold run
  rw [plan_atomicWrite c r d true, plan_atomicWrite c r d false]
  rcases plan c r d with ⟨omitted, e | p⟩
  · exact ⟨Or.inr ⟨e, e, rfl, rfl, .same e⟩, fun _ => rfl, rfl⟩
  dsimp only
  rcases writeHelper_alike { c with atomicWrite := true } { c with atomicWrite := false }
    p.report.output p.stubs d with ⟨a, b, ha, hb, hsame⟩ | ⟨e, e', a, b, ha, hb, hsame⟩
  · obtain ⟨_, hwritten⟩ := exists_written ha
    obtain ⟨_, hwritten'⟩ := exists_written hb
    rw [ha, hb]
    exact ⟨Or.inl ⟨_, _, rfl, rfl, hwritten.read, hwritten'.read⟩, hsame, rfl⟩
  · rw [ha, hb]
    exact ⟨Or.inr ⟨_, _, rfl, rfl, .persist _ e e'⟩, hsame, rfl⟩

end Ways

end Generation

end FacadeStubs
