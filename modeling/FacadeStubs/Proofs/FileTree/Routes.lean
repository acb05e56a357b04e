import FacadeStubs.Proofs.FileTree.Sight

/-!
# Where directions lead

`Disk.follow` goes along the steps of a path, and `Disk.locate` says what stands at its end. Both look
at directories only, except for the end of the path.

* `follow_append`, `follow_last`: steps are followed one behind the other;
* `locate_eq_ok_iff`: what it takes for directions to lead to an entry;
* `locate_kept`: they lead to the same place in every tree that keeps the directories.
-/
namespace FacadeStubs

open Entry

namespace Disk

theorem at?_snoc (t : Entry) (n : String) : ∀ place : Place,
    t.at? (place ++ [n]) = (t.at? place).bind fun e => e.at? [n]
  | [] => rfl
  | m :: place => by
    cases t with
    | file _ => rfl
    | dir es =>
      simp only [List.cons_append, at?]
      cases es.lookup m with
      | none => rfl
      | some t => simpa using at?_snoc t n place

/-- An entry of a directory by its place. -/
theorem lookup_isSome_iff {t : Entry} {place : Place} {entries : List (String × Entry)} {n : String}
    (h : t.at? place = some (.dir entries)) :
    (entries.lookup n).isSome ↔ (t.sightAt? (place ++ [n])).isSome := by
  rw [sightAt?, at?_snoc, h]
  cases hl : entries.lookup n <;> simp [at?, hl]

/-- A path that can be followed can be followed in a tree with the same directories, if there is
anything at its end. -/
theorem follow_kept {t t' : Entry} (hdir : KeepsDirectories t t') :
    ∀ (steps : List Step) (place q : Place), follow t place steps = .ok q →
      (t'.sightAt? q).isSome → follow t' place steps = .ok q
  | [], _, _, h, _ => h
  | s :: rest, place, q, h, hq => by
    simp only [follow] at h
    split at h
    · cases h
    · cases h
    · rename_i entries hp
      obtain ⟨entries', hp'⟩ := hdir.at? ⟨entries, hp⟩
      simp only [follow, hp']
      cases s with
      | up => exact follow_kept hdir rest _ q h hq
      | name n =>
        simp only at h ⊢
        split at h
        · -- The next place is the end, or a directory that the path goes through.
          have hnext : (t'.sightAt? (place ++ [n])).isSome := by
            cases rest with
            | nil => cases h; exact hq
            | cons s' rest =>
              simp only [follow] at h
              split at h
              · cases h
              · cases h
              · rename_i es hes
                rw [hdir _ (sightAt?_eq_directory.mpr ⟨es, hes⟩)]
                rfl
          rw [if_pos ((lookup_isSome_iff hp').mpr hnext)]
          exact follow_kept hdir rest _ q h hq
        · cases h

/-- Steps are followed one behind the other. -/
theorem follow_append (t : Entry) : ∀ (steps more : List Step) (place : Place),
    follow t place (steps ++ more) = (follow t place steps).bind fun q => follow t q more
  | [], _, _ => rfl
  | s :: rest, more, place => by
    simp only [List.cons_append, follow]
    split
    · rfl
    · rfl
    · cases s with
      | up => exact follow_append t rest more _
      | name n =>
        dsimp only
        split
        · exact follow_append t rest more _
        · rfl

/-- The last step of a path leads to a name of the directory before it. -/
theorem follow_last {t : Entry} {start place q : Place} {steps : List Step} {n : String}
    {entries : List (String × Entry)} (h : follow t start steps = .ok q)
    (hlast : steps.getLast? = some (.name n)) (hparent : follow t start steps.dropLast = .ok place)
    (hat : t.at? place = some (.dir entries)) : (entries.lookup n).isSome ∧ q = place ++ [n] := by
  have hsteps : steps = steps.dropLast ++ [.name n] := by
    rw [List.getLast?_eq_some_iff] at hlast
    obtain ⟨ys, rfl⟩ := hlast
    simp
  rw [hsteps, follow_append, hparent] at h
  simp only [Except.bind, follow, hat] at h
  split at h
  · rename_i hn
    cases h
    exact ⟨hn, rfl⟩
  · cases h

/-- Directions lead to the end of their steps, unless they are empty; if they end like those to a
directory, there is one. -/
theorem locate_eq_ok_iff {d : Disk} {r : Route} {place : Place} {e : Entry} :
    d.locate r = .ok (place, e) ↔
      (!r.absolute && r.steps.isEmpty && r.ending == .plain) = false ∧
      follow d.top (if r.absolute then [] else d.here) r.steps = .ok place ∧
      d.top.at? place = some e ∧ (r.ending ≠ .plain → e.isDir = true) := by
  unfold locate
  simp only [bind, Except.bind, pure, Except.pure, throw, throwThe, MonadExceptOf.throw]
  cases hempty : (!r.absolute && r.steps.isEmpty && r.ending == .plain) with
  | true => simp
  | false =>
    simp only [Bool.false_eq_true, if_false, true_and]
    cases hf : follow d.top (if r.absolute = true then [] else d.here) r.steps with
    | error e => simp
    | ok q =>
      simp only [Except.ok.injEq]
      cases hat : d.top.at? q with
      | none =>
        simp only [reduceCtorEq, false_iff]
        rintro ⟨rfl, h, -⟩
        rw [hat] at h
        cases h
      | some x =>
        dsimp only
        by_cases hr : r.ending ≠ .plain ∧ x.isDir = false
        · rw [if_pos (by simpa using hr)]
          simp only [reduceCtorEq, false_iff]
          rintro ⟨rfl, h, hdir⟩
          rw [hat, Option.some.injEq] at h
          subst h
          rw [hdir hr.1] at hr
          cases hr.2
        · rw [if_neg (by simpa using hr)]
          simp only [Except.ok.injEq, Prod.mk.injEq]
          constructor
          · rintro ⟨rfl, rfl⟩
            exact ⟨rfl, hat, fun h => by simpa [h] using hr⟩
          · rintro ⟨rfl, h, -⟩
            rw [hat, Option.some.injEq] at h
            exact ⟨rfl, h⟩

/-- What `locate` answers is in the tree, and is a directory if the directions end like one. -/
theorem locate_ok {d : Disk} {r : Route} {place : Place} {e : Entry}
    (h : d.locate r = .ok (place, e)) :
    d.top.at? place = some e ∧ (r.ending ≠ .plain → ∃ entries, e = .dir entries) := by
  obtain ⟨-, -, hat, hdir⟩ := locate_eq_ok_iff.mp h
  refine ⟨hat, fun hr => ?_⟩
  cases e with
  | file _ => cases hdir hr
  | dir entries => exact ⟨entries, rfl⟩

theorem entryAt_eq_ok_iff {d : Disk} {path : String} {e : Entry} :
    d.entryAt path = .ok e ↔ ∃ place, d.locate (Route.ofPath path) = .ok (place, e) := by
  unfold entryAt
  cases d.locate (Route.ofPath path) <;> simp [Except.map, Prod.ext_iff]

/-- Directions lead to the same place in a tree with the same directories, if there is anything. -/
theorem locate_kept {d d' : Disk} {r : Route} {place : Place} {e e' : Entry}
    (h : d.locate r = .ok (place, e))
    (hdir : KeepsDirectories d.top d'.top)
    (hh : d'.here = d.here) (he' : d'.top.at? place = some e') : d'.locate r = .ok (place, e') := by
  obtain ⟨hempty, hf, hat, hend⟩ := locate_eq_ok_iff.mp h
  refine locate_eq_ok_iff.mpr ⟨hempty, ?_, he', fun hr => ?_⟩
  · rw [hh]
    exact follow_kept hdir _ _ _ hf (by simp [sightAt?, he'])
  · obtain ⟨entries, rfl⟩ := (locate_ok h).2 hr
    obtain ⟨entries', hat'⟩ := hdir.at? ⟨entries, hat⟩
    rw [he', Option.some.injEq] at hat'
    rw [hat']
    rfl

/-- Directions to a directory lead to it in a tree with the same directories. -/
theorem locate_directory_kept {d d' : Disk} {r : Route} {place : Place} {e : Entry}
    (h : d.locate r = .ok (place, e)) (hr : r.ending ≠ .plain)
    (hdir : KeepsDirectories d.top d'.top)
    (hh : d'.here = d.here) : ∃ entries, d'.locate r = .ok (place, .dir entries) := by
  obtain ⟨hat, hend⟩ := locate_ok h
  obtain ⟨entries, rfl⟩ := hend hr
  obtain ⟨entries', hat'⟩ := hdir.at? ⟨entries, hat⟩
  exact ⟨entries', locate_kept h hdir hh hat'⟩

end Disk

end FacadeStubs
