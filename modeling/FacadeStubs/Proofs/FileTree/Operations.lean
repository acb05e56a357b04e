import FacadeStubs.Proofs.FileTree.Routes
import FacadeStubs.Proofs.FileTree.Walk
import Mathlib.Data.List.Nodup

/-!
# What file operations leave behind

`FileAction.Ends a d ok err` says how an operation ends on a disk: `ok` holds of its value and the
disk after it, or `err` of its error and the disk after it. One lemma for each operation then says
what it can do to the tree.

* `createDirectories_ends`: directories may be new, whether it succeeds or not;
* `write_ends`: a write in place that fails has changed nothing, and one that succeeds has stored the
  file and changed nothing else (`Stores`);
* `replace_ends`: a replacement that fails leaves the same sights, though it has made one or two
  files on its way; one that succeeds has stored the file and changed nothing else;
* `createDirectories_present`, `write_succeeds`, `replace_succeeds`: where a file is already there,
  storing it again does not fail.

Failure of a replacement needs that the rename cannot fail once the probe has made the output: a path
leads to the same place wherever the directories are the same (`Disk.locate_kept`), and the output's
directory is the one that the probe has found.
-/
namespace FacadeStubs

open Entry

namespace FileAction

/-- How an action ends on a disk. -/
def Ends {α : Type} (a : FileAction α) (d : Disk) (ok : α → Disk → Prop)
    (err : FileError → Disk → Prop) : Prop :=
  match a.run.run d with
  | (.ok x, d') => ok x d'
  | (.error e, d') => err e d'

section Rules

variable {α β : Type} {d : Disk} {ok : α → Disk → Prop} {err : FileError → Disk → Prop}

theorem Ends.mono {a : FileAction α} {ok' : α → Disk → Prop} {err' : FileError → Disk → Prop}
    (h : Ends a d ok err) (ho : ∀ x d', ok x d' → ok' x d') (he : ∀ e d', err e d' → err' e d') :
    Ends a d ok' err' := by
  unfold Ends at h ⊢
  split at h
  · exact ho _ _ h
  · exact he _ _ h

theorem Ends.and {a : FileAction α} {ok' : α → Disk → Prop} {err' : FileError → Disk → Prop}
    (h : Ends a d ok err) (h' : Ends a d ok' err') :
    Ends a d (fun x d' => ok x d' ∧ ok' x d') (fun e d' => err e d' ∧ err' e d') := by
  unfold Ends at h h' ⊢
  rcases hr : a.run.run d with ⟨r, d'⟩
  rw [hr] at h h'
  cases r with
  | ok x => exact ⟨h, h'⟩
  | error e => exact ⟨h, h'⟩

theorem Ends.ok_of_run {a : FileAction α} {x : α} {d' : Disk} (h : Ends a d ok err)
    (hr : a.run.run d = (.ok x, d')) : ok x d' := by
  unfold Ends at h
  rwa [hr] at h

theorem Ends.err_of_run {a : FileAction α} {e : FileError} {d' : Disk} (h : Ends a d ok err)
    (hr : a.run.run d = (.error e, d')) : err e d' := by
  unfold Ends at h
  rwa [hr] at h

theorem ends_of_run {a : FileAction α} {x : α} {d' : Disk} (hr : a.run.run d = (.ok x, d'))
    (h : ok x d') : Ends a d ok err := by
  unfold Ends
  rwa [hr]

/-- An action ends as it runs. -/
theorem ends_run (a : FileAction α) (d : Disk) :
    Ends a d (fun x d' => a.run.run d = (.ok x, d')) (fun e d' => a.run.run d = (.error e, d')) := by
  unfold Ends
  split <;> assumption

/-- What cannot fail succeeds. -/
theorem Ends.run_ok {a : FileAction α} (h : Ends a d ok fun _ _ => False) :
    ∃ x d', a.run.run d = (.ok x, d') ∧ ok x d' := by
  unfold Ends at h
  rcases hr : a.run.run d with ⟨r, d'⟩
  rw [hr] at h
  cases r with
  | ok x => exact ⟨x, d', rfl, h⟩
  | error e => exact h.elim

@[simp] theorem ends_pure {x : α} : Ends (pure x) d ok err ↔ ok x d := Iff.rfl

@[simp] theorem ends_throw {e : FileError} : Ends (throw e : FileAction α) d ok err ↔ err e d :=
  Iff.rfl

@[simp] theorem ends_disk {ok : Disk → Disk → Prop} : Ends disk d ok err ↔ ok d d := Iff.rfl

@[simp] theorem ends_change {f : Entry → Entry} {ok : Unit → Disk → Prop} :
    Ends (change f) d ok err ↔ ok () { d with top := f d.top } := Iff.rfl

@[simp] theorem ends_bind {a : FileAction β} {f : β → FileAction α} :
    Ends (a >>= f) d ok err ↔ Ends a d (fun x d' => Ends (f x) d' ok err) err := by
  simp only [Ends, ExceptT.run_bind, StateT.run_bind]
  rcases a.run.run d with ⟨r, d'⟩
  cases r <;> rfl

@[simp] theorem ends_tryCatch {a : FileAction α} {h : FileError → FileAction α} :
    Ends (tryCatch a h) d ok err ↔ Ends a d ok (fun e d' => Ends (h e) d' ok err) := by
  simp only [Ends, tryCatch, tryCatchThe, MonadExceptOf.tryCatch, ExceptT.tryCatch, ExceptT.run,
    ExceptT.mk, StateT.run_bind]
  rcases StateT.run a d with ⟨r, d'⟩
  cases r <;> rfl

theorem ends_look {question : Disk → Except FileError α} :
    Ends (look question) d ok err ↔
      (∀ x, question d = .ok x → ok x d) ∧ (∀ e, question d = .error e → err e d) := by
  unfold look
  simp only [ends_bind, ends_disk]
  cases h : question d <;> simp

end Rules

/-! ## Directories -/

/-- A disk that has got directories and nothing else. -/
structure Widened (d d' : Disk) : Prop where
  grown : Grown d.top d'.top
  here : d'.here = d.here
  walks : ∀ enter keep, SameWalk enter keep d.top d'.top

theorem Widened.refl (d : Disk) : Widened d d :=
  ⟨Grown.refl _, rfl, fun enter keep => SameWalk.refl enter keep d.top⟩

theorem Widened.trans {a b c : Disk} (hab : Widened a b) (hbc : Widened b c) : Widened a c :=
  ⟨hab.grown.trans hbc.grown, hbc.here.trans hab.here,
    fun enter keep => (hab.walks enter keep).trans (hbc.walks enter keep)⟩

/-- Putting an empty directory where nothing was. -/
theorem grown_put_dir {t : Entry} {place : Place} {n : String} {entries : List (String × Entry)}
    (hp : t.at? place = some (.dir entries)) (hn : t.sightAt? (place ++ [n]) = none) :
    Grown t (t.put (place ++ [n]) (.dir [])) := by
  have hput := fun q => sightAt?_put n (.dir []) place t q ⟨entries, hp⟩
  refine ⟨fun p s h => ?_, fun p s h h' => ?_⟩
  · rw [hput, if_neg, h]
    intro hpre
    rw [sightAt?_eq_none_below hpre hn] at h
    cases h
  · rw [hput] at h
    split at h
    · cases hq : p.drop (place.length + 1) with
      | nil => rw [hq] at h; cases h; rfl
      | cons m q => rw [hq] at h; cases h
    · rw [h'] at h; cases h

theorem createDirectory_ends (r : Route) (d : Disk) :
    Ends (createDirectory r) d (fun _ d' => Widened d d') (fun _ d' => d' = d) := by
  unfold createDirectory
  split
  · rename_i n _
    rw [ends_bind, ends_look]
    refine ⟨fun ⟨place, e⟩ hl => ?_, fun _ _ => rfl⟩
    obtain ⟨hat, hdir⟩ := Disk.locate_ok hl
    obtain ⟨entries, rfl⟩ := hdir (by simp)
    simp only [isDir, Bool.not_true, Bool.false_eq_true, if_false]
    split
    · simp
    · rename_i hn
      have hnone : d.top.at? (place ++ [n]) = none := by
        rw [Disk.at?_snoc, hat]
        simpa using hn
      rw [ends_change]
      refine ⟨grown_put_dir hat (by rw [sightAt?, hnone]; rfl), rfl, fun enter keep => ?_⟩
      refine sameWalk_put n _ place d.top keep ⟨entries, hat⟩ (fun e he => ?_) unseen_empty
      rw [hnone] at he
      cases he
  · rw [ends_bind, ends_look]
    exact ⟨fun _ _ => rfl, fun _ _ => rfl⟩

theorem leadsToDirectory_ends (r : Route) (d : Disk) {ok : Bool → Disk → Prop}
    {err : FileError → Disk → Prop} (h : ∀ b, ok b d) : Ends (leadsToDirectory r) d ok err := by
  unfold leadsToDirectory
  simp only [ends_bind, ends_disk]
  split <;> exact h _

theorem ensureDirectory_ends (r : Route) (d : Disk) :
    Ends (ensureDirectory r) d (fun _ d' => Widened d d') (fun _ d' => d' = d) := by
  unfold ensureDirectory
  rw [ends_tryCatch]
  refine (createDirectory_ends r d).mono (fun _ _ h => h) fun e d' h => ?_
  subst h
  rw [ends_bind]
  refine leadsToDirectory_ends r d' fun b => ?_
  cases b
  · simp
  · simpa using Widened.refl d'

/-- Making directories adds directories and changes nothing else, whether it succeeds or not. -/
theorem createDirectoriesWithin_ends : ∀ (n : Nat) (r : Route) (d : Disk),
    Ends (createDirectoriesWithin r n) d (fun _ d' => Widened d d') (fun _ d' => Widened d d')
  | 0, r, d => by
    refine (ensureDirectory_ends r d).mono (fun _ _ h => h) fun _ d' h => ?_
    subst h
    exact Widened.refl _
  | n + 1, r, d => by
    unfold createDirectoriesWithin
    rw [ends_tryCatch]
    refine (ensureDirectory_ends r d).mono (fun _ _ h => h) fun e d' h => ?_
    subst h
    split
    · rw [ends_bind]
      refine (createDirectoriesWithin_ends n r.parent d').mono (fun _ d₁ h₁ => ?_) fun _ _ h => h
      refine (ensureDirectory_ends r d₁).mono (fun _ d₂ h₂ => h₁.trans h₂) fun _ d₂ h₂ => ?_
      subst h₂
      exact h₁
    · exact Widened.refl _

theorem createDirectories_ends (r : Route) (d : Disk) :
    Ends (createDirectories r) d (fun _ d' => Widened d d') (fun _ d' => Widened d d') := by
  unfold createDirectories
  split
  · exact Widened.refl _
  · exact createDirectoriesWithin_ends _ r d

/-- What a path without a last slash leads to, if the path with it leads to a directory. -/
theorem locate_plain {d : Disk} {r : Route} {place : Place} {entries : List (String × Entry)}
    (hr : r.ending = .plain) (hs : r.steps ≠ [])
    (h : d.locate { r with ending := .dot } = .ok (place, .dir entries)) :
    d.locate r = .ok (place, .dir entries) := by
  obtain ⟨-, hf, hat, -⟩ := Disk.locate_eq_ok_iff.mp h
  refine Disk.locate_eq_ok_iff.mpr ⟨?_, hf, hat, fun hne => absurd hr hne⟩
  simp [List.isEmpty_eq_false_iff.mpr hs]

/-- A directory that is there is found there. -/
theorem ensureDirectory_present {d : Disk} {r : Route} {place : Place}
    {entries : List (String × Entry)} (hr : r.ending = .plain) (hs : r.steps ≠ [])
    (h : d.locate { r with ending := .dot } = .ok (place, .dir entries)) :
    Ends (ensureDirectory r) d (fun _ d' => d' = d) (fun _ _ => False) := by
  have hlocate := locate_plain hr hs h
  unfold ensureDirectory
  rw [ends_tryCatch]
  -- Whatever keeps the directory from being made, the directions lead to it.
  have hleads : ∀ e, Ends (do if ← leadsToDirectory r then pure () else throw e) d
      (fun _ d' => d' = d) (fun _ _ => False) := by
    intro e
    rw [ends_bind]
    unfold leadsToDirectory
    simp [hlocate, isDir]
  unfold createDirectory
  split
  · rename_i n hn
    rw [ends_bind, ends_look]
    refine ⟨fun ⟨place', e⟩ hl => ?_, fun e _ => hleads e⟩
    obtain ⟨hat, hdir⟩ := Disk.locate_ok hl
    obtain ⟨entries', rfl⟩ := hdir (by simp)
    obtain ⟨-, hparent, -, -⟩ := Disk.locate_eq_ok_iff.mp hl
    obtain ⟨-, hf, -, -⟩ := Disk.locate_eq_ok_iff.mp hlocate
    have hpresent := (Disk.follow_last hf hn hparent hat).1
    have hthere : ((Entry.dir entries').at? [n]).isSome = true := by simpa [at?] using hpresent
    simp only [isDir, Bool.not_true, Bool.false_eq_true, if_false, hthere, if_true]
    exact hleads _
  · rw [ends_bind, ends_look]
    refine ⟨fun _ _ => ?_, fun e _ => hleads e⟩
    rw [ends_throw]
    exact hleads _

/-- Making a directory that is there changes nothing. -/
theorem createDirectories_present {d : Disk} {r : Route} {place : Place}
    {entries : List (String × Entry)} (hr : r.ending = .plain)
    (h : d.locate { r with ending := .dot } = .ok (place, .dir entries)) :
    Ends (createDirectories r) d (fun _ d' => d' = d) (fun _ _ => False) := by
  unfold createDirectories
  split
  · exact rfl
  · rename_i hs
    have hpresent := ensureDirectory_present hr (by simpa using hs) h
    cases r.steps.length - 1 with
    | zero => exact hpresent
    | succ n =>
      unfold createDirectoriesWithin
      rw [ends_tryCatch]
      exact hpresent.mono (fun _ _ h => h) fun _ _ h => h.elim

/-! ## Files in place -/

/-- Where directions place a new file: the directory that holds it and its name there. -/
structure Targets (d : Disk) (r : Route) (place : Place) (n : String) : Prop where
  named : r.steps.getLast? = some (.name n)
  located : ∃ entries, d.locate { r.parent with ending := .dot } = .ok (place, .dir entries)

theorem Targets.holds {d : Disk} {r : Route} {place : Place} {n : String} (h : Targets d r place n) :
    ∃ entries, d.top.at? place = some (.dir entries) := by
  obtain ⟨entries, hl⟩ := h.located
  exact ⟨entries, (Disk.locate_ok hl).1⟩

theorem Targets.kept {d d' : Disk} {r : Route} {place : Place} {n : String} (h : Targets d r place n)
    (hdir : KeepsDirectories d.top d'.top) (hh : d'.here = d.here) : Targets d' r place n := by
  obtain ⟨entries, hl⟩ := h.located
  exact ⟨h.named, Disk.locate_directory_kept hl (by simp) hdir hh⟩

theorem Targets.unique {d : Disk} {r : Route} {place place' : Place} {n n' : String}
    (h : Targets d r place n) (h' : Targets d r place' n') : place' = place ∧ n' = n := by
  obtain ⟨entries, hl⟩ := h.located
  obtain ⟨entries', hl'⟩ := h'.located
  rw [hl] at hl'
  have hn := h.named.symm.trans h'.named
  cases hl'
  cases hn
  exact ⟨rfl, rfl⟩

/-- A file that is there is found where its directions place it. -/
theorem Targets.locate {d : Disk} {r : Route} {place : Place} {n : String} {e : Entry}
    (h : Targets d r place n) (hr : r.ending = .plain) (he : d.top.at? (place ++ [n]) = some e) :
    d.locate r = .ok (place ++ [n], e) := by
  obtain ⟨entries, hl⟩ := h.located
  obtain ⟨-, hparent, hat, -⟩ := Disk.locate_eq_ok_iff.mp hl
  obtain ⟨steps, hsteps⟩ := List.getLast?_eq_some_iff.mp h.named
  have hthere : (entries.lookup n).isSome := by
    rw [Disk.lookup_isSome_iff hat, sightAt?, he]
    rfl
  refine Disk.locate_eq_ok_iff.mpr ⟨by simp [hsteps], ?_, he, fun hne => absurd hr hne⟩
  simp only [Route.parent, hsteps, List.dropLast_concat] at hparent
  rw [hsteps, Disk.follow_append, hparent]
  simp [Except.bind, Disk.follow, hat, hthere]

/-- A file that is not there is missing, not out of reach. -/
theorem Targets.locate_missing {d : Disk} {r : Route} {place : Place} {n : String}
    (h : Targets d r place n) (hnone : d.top.sightAt? (place ++ [n]) = none) :
    d.locate r = .error .missing := by
  obtain ⟨entries, hl⟩ := h.located
  obtain ⟨-, hparent, hat, -⟩ := Disk.locate_eq_ok_iff.mp hl
  obtain ⟨steps, hsteps⟩ := List.getLast?_eq_some_iff.mp h.named
  have hthere : (entries.lookup n).isSome = false := by
    rw [← Bool.not_eq_true, Disk.lookup_isSome_iff hat, hnone]
    simp
  simp only [Route.parent, hsteps, List.dropLast_concat] at hparent
  have hfollow : Disk.follow d.top (if r.absolute then [] else d.here) r.steps = .error .missing := by
    rw [hsteps, Disk.follow_append, hparent]
    simp [Except.bind, Disk.follow, hat, hthere]
  unfold Disk.locate
  rw [hfollow]
  split <;> rfl

theorem target_ends (r : Route) (d : Disk) :
    Ends (target r) d (fun p d' => d' = d ∧ Targets d r p.1 p.2) (fun _ d' => d' = d) := by
  unfold target
  split
  · rename_i n hn
    rw [ends_bind, ends_look]
    refine ⟨fun ⟨place, e⟩ hl => ?_, fun _ _ => rfl⟩
    obtain ⟨entries, rfl⟩ := (Disk.locate_ok hl).2 (by simp)
    exact ⟨rfl, hn, entries, hl⟩
  · rw [ends_bind, ends_look]
    exact ⟨fun _ _ => rfl, fun _ _ => rfl⟩

/-- Opening a file fails without a change, or puts an empty file at its place, which held no
directory; where only a new one is asked for, nothing was there. -/
theorem openFile_ends (r : Route) (onlyNew : Bool) (d : Disk) :
    Ends (openFile r onlyNew) d
      (fun p d' => ∃ place n, p = place ++ [n] ∧ Targets d r place n ∧ r.ending = .plain ∧
        d.top.sightAt? p ≠ some .directory ∧ (onlyNew = true → d.top.sightAt? p = none) ∧
        d' = { d with top := d.top.put p (.file []) })
      (fun _ d' => d' = d) := by
  unfold openFile
  dsimp only
  by_cases hdot : r.ending == .dot
  · rw [if_pos hdot, ends_bind, ends_look]
    exact ⟨fun _ _ => by cases onlyNew <;> rfl, fun _ _ => rfl⟩
  rw [if_neg hdot, ends_bind]
  refine (target_ends r d).mono (fun p d' h => ?_) fun _ _ h => h
  obtain ⟨place, n⟩ := p
  obtain ⟨rfl, ht⟩ := h
  by_cases hslash : r.ending == .slash
  · simp [hslash]
  have hplain : r.ending = .plain := by
    cases hr : r.ending with
    | plain => rfl
    | slash => simp [hr] at hslash
    | dot => simp [hr] at hdot
  simp only [if_neg hslash, ends_bind, ends_disk]
  cases hat : d'.top.at? (place ++ [n]) with
  | none =>
    have hs : d'.top.sightAt? (place ++ [n]) = none := by rw [sightAt?, hat]; rfl
    exact ⟨place, n, rfl, ht, hplain, by rw [hs]; simp, fun _ => hs, rfl⟩
  | some e =>
    cases e with
    | dir _ => cases onlyNew <;> rfl
    | file content =>
      have hs := sightAt?_eq_content.mpr hat
      cases onlyNew with
      | true => rfl
      | false =>
        exact ⟨place, n, rfl, ht, hplain, by rw [hs]; simp, fun h => absurd h Bool.false_ne_true, rfl⟩

/-- Opening a file succeeds where it is there or its directory is there without it; where only a new
one is asked for, it must not be there. -/
theorem openFile_succeeds {d : Disk} {r : Route} {onlyNew : Bool} {place : Place} {n : String}
    (ht : Targets d r place n) (hr : r.ending = .plain)
    (hfree : d.top.sightAt? (place ++ [n]) ≠ some .directory)
    (hnew : onlyNew = true → d.top.sightAt? (place ++ [n]) = none) :
    Ends (openFile r onlyNew) d (fun _ _ => True) (fun _ _ => False) := by
  obtain ⟨entries, hl⟩ := ht.located
  unfold openFile target
  simp only [hr, ht.named, beq_iff_eq, reduceCtorEq, if_false, ends_bind, ends_look, hl]
  refine ⟨fun x hx => ?_, fun e he => by cases he⟩
  cases hx
  simp only [ends_pure, ends_disk]
  cases hat : d.top.at? (place ++ [n]) with
  | none => trivial
  | some e =>
    cases e with
    | dir es => exact absurd (sightAt?_eq_directory.mpr ⟨es, hat⟩) hfree
    | file content =>
      cases onlyNew with
      | false => trivial
      | true =>
        rw [sightAt?_eq_content.mpr hat] at hnew
        cases hnew rfl

/-- A name that temporary files have. -/
def IsTemporary (n : String) : Prop := ∃ i : Nat, n = ".tmp" ++ toString i

/-- A look at a tree that sees neither a place nor temporary files. -/
structure Blind (enter : String → Bool) (keep : Place → Bool) (p : Place) : Prop where
  place : keep p = false
  temporary : ∀ n, IsTemporary n → enter n = false ∧ ∀ q, keep (q ++ [n]) = false

theorem Blind.of_temporary {enter : String → Bool} {keep : Place → Bool} {p place : Place} {n : String}
    (h : Blind enter keep p) (hn : IsTemporary n) : Blind enter keep (place ++ [n]) :=
  ⟨(h.temporary n hn).2 place, h.temporary⟩

/-- Nothing has changed but the content of a file, to the eye or for a walk. -/
structure Elsewhere (t t' : Entry) (p : Place) : Prop where
  directories : ∀ q, t'.sightAt? q = some .directory ↔ t.sightAt? q = some .directory
  frame : ∀ q, q ≠ p → t'.sightAt? q = t.sightAt? q
  walks : ∀ enter keep, Blind enter keep p → SameWalk enter keep t t'

theorem Elsewhere.refl (t : Entry) (p : Place) : Elsewhere t t p :=
  ⟨fun _ => Iff.rfl, fun _ _ => rfl, fun enter keep _ => SameWalk.refl enter keep t⟩

theorem Elsewhere.trans {a b c : Entry} {p : Place} (hab : Elsewhere a b p) (hbc : Elsewhere b c p) :
    Elsewhere a c p :=
  ⟨fun q => (hbc.directories q).trans (hab.directories q),
    fun q hq => (hbc.frame q hq).trans (hab.frame q hq),
    fun enter keep h => (hab.walks enter keep h).trans (hbc.walks enter keep h)⟩

theorem Elsewhere.keeps {t t' : Entry} {p : Place} (h : Elsewhere t t' p) : KeepsDirectories t t' :=
  fun q => (h.directories q).mpr

theorem Elsewhere.keeps_back {t t' : Entry} {p : Place} (h : Elsewhere t t' p) :
    KeepsDirectories t' t := fun q => (h.directories q).mp

/-- A file is stored at a place, and nothing else has changed. -/
structure Stores (t t' : Entry) (p : Place) (content : Bytes) : Prop extends Elsewhere t t' p where
  written : t'.sightAt? p = some (.content content)

/-- A file is not stored where a directory was. -/
theorem Stores.free {t t' : Entry} {p : Place} {content : Bytes} (h : Stores t t' p content) :
    t.sightAt? p ≠ some .directory := by
  intro hdir
  have hwritten := h.written
  rw [h.keeps _ hdir] at hwritten
  cases hwritten

/-- Putting a file where no directory was. -/
theorem sightAt?_put_file {t : Entry} {place : Place} {n : String} {content : Bytes}
    (hdir : ∃ entries, t.at? place = some (.dir entries))
    (hfree : t.sightAt? (place ++ [n]) ≠ some .directory) (q : Place) :
    (t.put (place ++ [n]) (.file content)).sightAt? q =
      if q = place ++ [n] then some (.content content) else t.sightAt? q := by
  rw [sightAt?_put n _ place t q hdir]
  by_cases hq : q = place ++ [n]
  · subst hq
    simp [sightAt?, at?, sight]
  · rw [if_neg hq]
    split
    · rename_i hpre
      -- Below a file there is nothing, and there was nothing before.
      rw [sightAt?_eq_none_of_lt hpre hq hfree]
      obtain ⟨rest, rfl⟩ := hpre
      cases rest with
      | nil => simp at hq
      | cons m rest => simp [sightAt?, at?]
    · rfl

theorem stores_put {t : Entry} {place : Place} {n : String} {content : Bytes}
    (hdir : ∃ entries, t.at? place = some (.dir entries))
    (hfree : t.sightAt? (place ++ [n]) ≠ some .directory) :
    Stores t (t.put (place ++ [n]) (.file content)) (place ++ [n]) content := by
  refine ⟨⟨fun q => ?_, fun q hq => ?_, fun enter keep hblind => ?_⟩, ?_⟩
  · rw [sightAt?_put_file hdir hfree]
    split
    · rename_i hq
      subst hq
      exact iff_of_false (by simp) hfree
    · exact Iff.rfl
  · rw [sightAt?_put_file hdir hfree, if_neg hq]
  · have hunseen : ∀ c, Unseen enter (fun p => keep (place ++ p)) n (.file c) :=
      fun c => unseen_file hblind.place
    refine sameWalk_put n _ place t keep hdir (fun e he => ?_) (hunseen content)
    cases e with
    | dir es => exact absurd (sightAt?_eq_directory.mpr ⟨es, he⟩) hfree
    | file c => exact ⟨rfl, hunseen c⟩
  · rw [sightAt?_put_file hdir hfree, if_pos rfl]

/-- A write in place that fails has changed nothing; one that succeeds has stored the file. -/
theorem write_ends (path : String) (content : Bytes) (d : Disk) :
    Ends (write path content) d
      (fun _ d' => d'.here = d.here ∧ ∃ place n, Targets d (Route.ofPath path) place n ∧
        (Route.ofPath path).ending = .plain ∧ Stores d.top d'.top (place ++ [n]) content)
      (fun _ d' => d' = d) := by
  unfold write
  rw [ends_bind]
  refine (openFile_ends _ false d).mono (fun p d₁ h => ?_) fun _ _ h => h
  obtain ⟨place, n, rfl, ht, hplain, hfree, -, rfl⟩ := h
  have hfirst : Stores d.top (d.top.put (place ++ [n]) (.file [])) (place ++ [n]) [] :=
    stores_put ht.holds hfree
  have hsecond := @stores_put (d.top.put (place ++ [n]) (.file [])) place n content
    (hfirst.keeps.at? ht.holds) (by rw [hfirst.written]; simp)
  rw [ends_change]
  exact ⟨rfl, place, n, ht, hplain, hfirst.toElsewhere.trans hsecond.toElsewhere, hsecond.written⟩

theorem write_succeeds {d : Disk} {path : String} {content : Bytes} {place : Place} {n : String}
    (ht : Targets d (Route.ofPath path) place n) (hr : (Route.ofPath path).ending = .plain)
    (hfree : d.top.sightAt? (place ++ [n]) ≠ some .directory) :
    Ends (write path content) d (fun _ _ => True) (fun _ _ => False) := by
  unfold write
  rw [ends_bind]
  exact (openFile_succeeds ht hr hfree fun h => absurd h Bool.false_ne_true).mono
    (fun _ _ _ => trivial) fun _ _ h => h

/-! ## Files by way of a temporary one -/

theorem temporaryNames_nodup (n : Nat) :
    ((List.range n).map fun i => ".tmp" ++ toString i).Nodup := by
  refine List.nodup_range.map fun a b h => ?_
  have h := congrArg String.toList ((String.append_right_inj _).mp h)
  have h' : Nat.toDigits 10 a = Nat.toDigits 10 b := by simpa using h
  rw [← Nat.ofDigitChars_ten_toDigits (n := a), h', Nat.ofDigitChars_ten_toDigits]

/-- One more name is tried than the directory has entries, so one of them is free. -/
theorem freshName_free (entries : List (String × Entry)) :
    IsTemporary (freshName entries) ∧ entries.lookup (freshName entries) = none := by
  unfold freshName
  dsimp only
  cases hf : ((List.range (entries.length + 1)).map fun n => ".tmp" ++ toString n).find?
      (fun n => (entries.lookup n).isNone) with
  | some n =>
    obtain ⟨i, -, hi⟩ := List.mem_map.mp (List.mem_of_find?_eq_some hf)
    exact ⟨⟨i, hi.symm⟩, by simpa using List.find?_some hf⟩
  | none =>
    exfalso
    have hsub : ((List.range (entries.length + 1)).map fun n => ".tmp" ++ toString n) ⊆
        entries.map Prod.fst := by
      intro n hn
      have hs := List.find?_eq_none.mp hf n hn
      simp only [Option.isNone_iff_eq_none] at hs
      obtain ⟨e, he⟩ := Option.ne_none_iff_exists'.mp hs
      obtain ⟨before, after, rfl, -⟩ := List.lookup_eq_some_iff.mp he
      exact List.mem_map.mpr ⟨(n, e), by simp, rfl⟩
    have hle := (temporaryNames_nodup (entries.length + 1)).length_le_of_subset hsub
    simp only [List.length_map, List.length_range] at hle
    omega

theorem writeTemporary_ends (directory : Route) (content : Bytes) (d : Disk) :
    Ends (writeTemporary directory content) d
      (fun p d' => ∃ place n, p = place ++ [n] ∧ IsTemporary n ∧
        (∃ entries, d.top.at? place = some (.dir entries)) ∧ d.top.sightAt? p = none ∧
        d' = { d with top := d.top.put p (.file content) })
      (fun _ d' => d' = d) := by
  unfold writeTemporary
  rw [ends_bind, ends_look]
  refine ⟨fun ⟨place, e⟩ hl => ?_, fun _ _ => rfl⟩
  obtain ⟨hat, -⟩ := Disk.locate_ok hl
  cases e with
  | file _ => exact rfl
  | dir entries =>
    obtain ⟨htemporary, hfree⟩ := freshName_free entries
    refine ⟨place, freshName entries, rfl, htemporary, ⟨entries, hat⟩, ?_, rfl⟩
    rw [sightAt?, Disk.at?_snoc, hat]
    simp [at?, hfree]

theorem writeTemporary_succeeds {directory : Route} {content : Bytes} {d : Disk} {place : Place}
    {entries : List (String × Entry)}
    (h : d.locate { directory with ending := .dot } = .ok (place, .dir entries)) :
    Ends (writeTemporary directory content) d (fun _ _ => True) (fun _ _ => False) := by
  unfold writeTemporary
  rw [ends_bind, ends_look, h]
  refine ⟨fun x hx => ?_, fun e he => by cases he⟩
  cases hx
  trivial

/-- Looking for the output fails without a change. If it makes the output, nothing was there. -/
theorem probe_ends (r : Route) (d : Disk) :
    Ends (probe r) d
      (fun created d' => (created = false ∧ d' = d) ∨
        created = true ∧ ∃ place n, Targets d r place n ∧ r.ending = .plain ∧
          d.top.sightAt? (place ++ [n]) = none ∧
          d' = { d with top := d.top.put (place ++ [n]) (.file []) })
      (fun _ d' => d' = d) := by
  unfold probe
  rw [ends_bind, ends_disk]
  split
  · exact Or.inl ⟨rfl, rfl⟩
  · rw [ends_bind]
    refine (openFile_ends r true d).mono (fun p d' h => ?_) fun _ _ h => h
    obtain ⟨place, n, rfl, ht, hplain, -, hnew, hd⟩ := h
    exact Or.inr ⟨rfl, place, n, ht, hplain, hnew rfl, hd⟩
  · exact rfl

/-- Looking for the output does not fail where it can be made. -/
theorem probe_succeeds {r : Route} {d : Disk} {place : Place} {n : String} (ht : Targets d r place n)
    (hr : r.ending = .plain) (hfree : d.top.sightAt? (place ++ [n]) ≠ some .directory) :
    Ends (probe r) d (fun _ _ => True) (fun _ _ => False) := by
  unfold probe
  rw [ends_bind, ends_disk]
  cases hat : d.top.at? (place ++ [n]) with
  | some e =>
    rw [ht.locate hr hat]
    trivial
  | none =>
    have hnone : d.top.sightAt? (place ++ [n]) = none := by rw [sightAt?, hat]; rfl
    rw [ht.locate_missing hnone]
    dsimp only
    rw [ends_bind]
    exact (openFile_succeeds ht hr hfree fun _ => hnone).mono (fun _ _ _ => trivial) fun _ _ h => h

/-- A rename that fails has changed nothing; one that succeeds has moved the file to a place that
held no directory. -/
theorem rename_ends (source : Place) (r : Route) (d : Disk) :
    Ends (rename source r) d
      (fun _ d' => ∃ place n file, Targets d r place n ∧ r.ending = .plain ∧
        d.top.sightAt? (place ++ [n]) ≠ some .directory ∧ d.top.at? source = some file ∧
        d' = { d with top := (d.top.remove source).put (place ++ [n]) file })
      (fun _ d' => d' = d) := by
  unfold rename
  split
  · rw [ends_bind, ends_look]
    exact ⟨fun _ _ => rfl, fun _ _ => rfl⟩
  · rename_i n hn hdot
    rw [ends_bind, ends_look]
    refine ⟨fun ⟨place, e⟩ hl => ?_, fun _ _ => rfl⟩
    obtain ⟨hat, hdir⟩ := Disk.locate_ok hl
    obtain ⟨entries, rfl⟩ := hdir (by simp)
    dsimp only
    split
    · exact rfl
    · rename_i hslash
      split
      · exact rfl
      · rename_i hfree
        rw [ends_bind, ends_disk]
        split
        · exact rfl
        · rename_i file hfile
          have hplain : r.ending = .plain := by
            cases hr : r.ending with
            | plain => rfl
            | slash => simp [hr] at hslash
            | dot => exact absurd hr hdot
          have hnot : d.top.sightAt? (place ++ [n]) ≠ some .directory := by
            rw [Ne, sightAt?_eq_directory, Disk.at?_snoc, hat]
            rintro ⟨es, hes⟩
            rw [Option.bind_some] at hes
            simp [hes, isDir] at hfree
          rw [ends_change]
          exact ⟨place, n, file, ⟨hn, entries, hl⟩, hplain, hnot, hfile, rfl⟩
  · exact rfl

/-- A rename to a place that holds no directory does not fail. -/
theorem rename_succeeds {source : Place} {r : Route} {d : Disk} {place : Place} {n : String}
    (ht : Targets d r place n) (hr : r.ending = .plain)
    (hfree : d.top.sightAt? (place ++ [n]) ≠ some .directory)
    (hsource : ∃ e, d.top.at? source = some e) :
    Ends (rename source r) d (fun _ _ => True) (fun _ _ => False) := by
  obtain ⟨entries, hl⟩ := ht.located
  obtain ⟨hat, -⟩ := Disk.locate_ok hl
  obtain ⟨moved, hsource⟩ := hsource
  have hfile : (((Entry.dir entries).at? [n]).map isDir).getD false = false := by
    have hnone : ∀ es, (Entry.dir entries).at? [n] ≠ some (.dir es) := by
      intro es hes
      refine hfree (sightAt?_eq_directory.mpr ⟨es, ?_⟩)
      rw [Disk.at?_snoc, hat, Option.bind_some, hes]
    cases hn : (Entry.dir entries).at? [n] with
    | none => rfl
    | some e =>
      cases e with
      | file _ => rfl
      | dir es => exact absurd hn (hnone es)
  unfold rename
  simp only [ht.named, hr]
  rw [ends_bind, ends_look, hl]
  refine ⟨fun x hx => ?_, fun _ he => by cases he⟩
  cases hx
  simp [hfile, hsource]

/-! ### The temporary file -/

/-- Removing a file. -/
theorem sightAt?_remove_file {t : Entry} {place : Place} {n : String} {content : Bytes}
    (hdir : ∃ entries, t.at? place = some (.dir entries))
    (hfile : t.sightAt? (place ++ [n]) = some (.content content)) (q : Place) :
    (t.remove (place ++ [n])).sightAt? q = if q = place ++ [n] then none else t.sightAt? q := by
  rw [sightAt?_remove n place t q hdir]
  by_cases hq : q = place ++ [n]
  · rw [if_pos hq, if_pos (hq ▸ List.prefix_rfl)]
  · rw [if_neg hq]
    split
    · rename_i hpre
      exact (sightAt?_eq_none_of_lt hpre hq (by rw [hfile]; simp)).symm
    · rfl

/-- A temporary file is made, the output is changed, and the temporary file takes its place: all in
all a file is stored. -/
theorem stores_rename {t t₁ : Entry} {source place : Place} {m n : String} {content : Bytes}
    (hm : IsTemporary m) (hsource : ∃ entries, t.at? source = some (.dir entries))
    (hnone : t.sightAt? (source ++ [m]) = none)
    (h : Elsewhere (t.put (source ++ [m]) (.file content)) t₁ (place ++ [n]))
    (hfile : t₁.sightAt? (source ++ [m]) = some (.content content))
    (hplace : ∃ entries, t₁.at? place = some (.dir entries))
    (hfree : t₁.sightAt? (place ++ [n]) ≠ some .directory) :
    Stores t ((t₁.remove (source ++ [m])).put (place ++ [n]) (.file content)) (place ++ [n])
      content := by
  have hmade : Stores t (t.put (source ++ [m]) (.file content)) (source ++ [m]) content :=
    stores_put hsource (by rw [hnone]; simp)
  have hsource₁ : ∃ entries, t₁.at? source = some (.dir entries) :=
    h.keeps.at? (hmade.keeps.at? hsource)
  have hremove := sightAt?_remove_file hsource₁ hfile
  have hkept : ∀ q, (t₁.remove (source ++ [m])).sightAt? q = some .directory ↔
      t₁.sightAt? q = some .directory := by
    intro q
    rw [hremove]
    split
    · rename_i hq
      rw [hq, hfile]
      simp
    · exact Iff.rfl
  have hstored : Stores (t₁.remove (source ++ [m])) _ (place ++ [n]) content :=
    stores_put (KeepsDirectories.at? (fun q => (hkept q).mpr) hplace) ((hkept _).not.mpr hfree)
  refine ⟨⟨fun q => ?_, fun q hq => ?_, fun enter keep hblind => ?_⟩, hstored.written⟩
  · exact ((hstored.directories q).trans (hkept q)).trans
      ((h.directories q).trans (hmade.directories q))
  · rw [hstored.frame q hq, hremove]
    split
    · rename_i hq
      rw [hq, hnone]
    · rename_i hq'
      rw [h.frame q hq, hmade.frame q hq']
  · have hfiles : ∀ e, t₁.at? (source ++ [m]) = some e → e.isDir = false := by
      intro e he
      rw [sightAt?_eq_content.mp hfile, Option.some.injEq] at he
      rw [← he]
      rfl
    have hunseen : ∀ e, Unseen enter (fun p => keep (source ++ p)) m e := fun e =>
      unseen_of_not_enter (hblind.temporary m hm).1 ((hblind.temporary m hm).2 source)
    exact (((hmade.walks enter keep (hblind.of_temporary hm)).trans (h.walks enter keep hblind)).trans
      (sameWalk_remove m source t₁ keep hsource₁ hfiles hunseen)).trans (hstored.walks enter keep hblind)

/-- A replacement that fails leaves everything as it was: neither the temporary file nor an output
made by the probe stays. One that succeeds has stored the file. -/
theorem replace_ends (path : String) (directory : Route) (content : Bytes) (d : Disk) :
    Ends (replace path directory content) d
      (fun _ d' => d'.here = d.here ∧ ∃ place n, Targets d (Route.ofPath path) place n ∧
        (Route.ofPath path).ending = .plain ∧ Stores d.top d'.top (place ++ [n]) content)
      (fun _ d' => ∀ q, d'.top.sightAt? q = d.top.sightAt? q) := by
  unfold replace
  dsimp only
  rw [ends_bind]
  refine (writeTemporary_ends directory content d).mono (fun p d₁ h => ?_) fun _ d' h q => by rw [h]
  obtain ⟨source, m, rfl, hm, hsource, hnone, rfl⟩ := h
  have hmade : Stores d.top (d.top.put (source ++ [m]) (.file content)) (source ++ [m]) content :=
    stores_put hsource (by rw [hnone]; simp)
  have hsource₁ := hmade.keeps.at? hsource
  have hdrop : ∀ q, ((d.top.put (source ++ [m]) (.file content)).remove (source ++ [m])).sightAt? q =
      d.top.sightAt? q := by
    intro q
    rw [sightAt?_remove_file hsource₁ hmade.written]
    split
    · rename_i hq
      rw [hq, hnone]
    · rename_i hq
      exact hmade.frame q hq
  rw [ends_bind, ends_tryCatch]
  refine (probe_ends (Route.ofPath path) _).mono (fun created d₂ h => ?_) fun _ d' h => ?_
  · rw [ends_tryCatch]
    rcases h with ⟨rfl, rfl⟩ | ⟨rfl, place, n, ht, hplain, hfree, rfl⟩
    · refine (rename_ends _ _ _).mono (fun _ d' h => ?_) fun _ d' h => ?_
      · obtain ⟨place, n, file, ht, hplain, hfree, hfile, rfl⟩ := h
        rw [sightAt?_eq_content.mp hmade.written, Option.some.injEq] at hfile
        subst hfile
        exact ⟨rfl, place, n, ht.kept hmade.keeps_back rfl, hplain,
          stores_rename hm hsource hnone (.refl _ _) hmade.written ht.holds hfree⟩
      · subst h
        exact hdrop
    · -- The output is new, so the rename has its directory and a file to take the place of.
      have hprobed : Stores (d.top.put (source ++ [m]) (.file content)) _ (place ++ [n]) [] :=
        stores_put ht.holds (by rw [hfree]; simp)
      have hfile : ((d.top.put (source ++ [m]) (.file content)).put (place ++ [n])
          (.file [])).sightAt? (source ++ [m]) = some (.content content) := by
        rw [hprobed.frame, hmade.written]
        intro heq
        rw [← heq, hmade.written] at hfree
        cases hfree
      have ht₂ : Targets ⟨(d.top.put (source ++ [m]) (.file content)).put (place ++ [n]) (.file []),
          d.here⟩ (Route.ofPath path) place n := ht.kept hprobed.keeps rfl
      have hfree₂ : ((d.top.put (source ++ [m]) (.file content)).put (place ++ [n])
          (.file [])).sightAt? (place ++ [n]) ≠ some .directory := by
        rw [hprobed.written]
        simp
      refine ((rename_ends _ _ _).and (rename_succeeds ht₂ hplain hfree₂
        ⟨_, sightAt?_eq_content.mp hfile⟩)).mono (fun _ d' h => ?_) fun _ _ h => h.2.elim
      obtain ⟨⟨place', n', file, ht', -, -, hfile', rfl⟩, -⟩ := h
      obtain ⟨rfl, rfl⟩ := ht₂.unique ht'
      rw [sightAt?_eq_content.mp hfile, Option.some.injEq] at hfile'
      subst hfile'
      exact ⟨rfl, place', n', ht.kept hmade.keeps_back rfl, hplain,
        stores_rename hm hsource hnone hprobed.toElsewhere hfile ht₂.holds hfree₂⟩
  · subst h
    exact hdrop

/-- A file is replaced, or made, where no directory has its name. -/
theorem replace_succeeds {d : Disk} {path : String} {content : Bytes} {place : Place} {n : String}
    (ht : Targets d (Route.ofPath path) place n) (hr : (Route.ofPath path).ending = .plain)
    (hfree : d.top.sightAt? (place ++ [n]) ≠ some .directory) :
    Ends (replace path (Route.ofPath path).parent content) d (fun _ _ => True) (fun _ _ => False) := by
  obtain ⟨entries, hl⟩ := ht.located
  unfold replace
  dsimp only
  rw [ends_bind]
  refine ((writeTemporary_ends _ content d).and (writeTemporary_succeeds hl)).mono
    (fun p d₁ h => ?_) fun _ _ h => h.2
  obtain ⟨⟨source, m, rfl, -, hsource, hnone, rfl⟩, -⟩ := h
  have hmade : Stores d.top (d.top.put (source ++ [m]) (.file content)) (source ++ [m]) content :=
    stores_put hsource (by rw [hnone]; simp)
  have ht₁ : Targets ⟨d.top.put (source ++ [m]) (.file content), d.here⟩ (Route.ofPath path) place n :=
    ht.kept hmade.keeps rfl
  have hfree₁ : (d.top.put (source ++ [m]) (.file content)).sightAt? (place ++ [n]) ≠ some .directory :=
    (hmade.directories _).not.mpr hfree
  rw [ends_bind, ends_tryCatch]
  refine ((probe_ends (Route.ofPath path) _).and (probe_succeeds ht₁ hr hfree₁)).mono
    (fun created d₂ h => ?_) fun _ _ h => h.2.elim
  rw [ends_tryCatch]
  obtain ⟨⟨rfl, rfl⟩ | ⟨rfl, place', n', ht', -, hmissing, rfl⟩, -⟩ := h
  · exact (rename_succeeds ht₁ hr hfree₁ ⟨_, sightAt?_eq_content.mp hmade.written⟩).mono
      (fun _ _ _ => trivial) fun _ _ h => h.elim
  · -- The output is new, so it is not where the temporary file is.
    obtain ⟨rfl, rfl⟩ := ht₁.unique ht'
    have hprobed : Stores (d.top.put (source ++ [m]) (.file content)) _ (place' ++ [n']) [] :=
      stores_put ht'.holds hfree₁
    have hfile : ((d.top.put (source ++ [m]) (.file content)).put (place' ++ [n'])
        (.file [])).sightAt? (source ++ [m]) = some (.content content) := by
      rw [hprobed.frame, hmade.written]
      intro heq
      rw [← heq, hmade.written] at hmissing
      cases hmissing
    have hplace : ((d.top.put (source ++ [m]) (.file content)).put (place' ++ [n'])
        (.file [])).sightAt? (place' ++ [n']) ≠ some .directory := by
      rw [hprobed.written]
      simp
    exact (rename_succeeds (d := ⟨_, d.here⟩) (ht'.kept hprobed.keeps rfl) hr hplace
      ⟨_, sightAt?_eq_content.mp hfile⟩).mono (fun _ _ _ => trivial) fun _ _ h => h.elim

end FileAction

end FacadeStubs
