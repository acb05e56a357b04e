import FacadeStubs.Proofs.FailedRun
import FacadeStubs.Proofs.FileTree.SourceFiles

/-!
# Trees stay proper

No file operation makes a second entry of a name in a directory. What is put into a tree replaces the entry
of its name, so it is enough that the changes of a tree keep it proper (`Proper.put`, `Proper.remove`), and
that operations are made of these changes. `FileAction.KeepsProper` has one rule for each way of putting
operations together, and one lemma for each operation. An operation may fail in between, so both ends are
part of it.

* `command_proper`: whatever a command does, it leaves a proper tree as a proper tree;
* `Reached.mem_scanned_iff`: so whatever commands have been carried out, scans find the files that they ask
  for.
-/
namespace FacadeStubs

open Entry

namespace Entry

/-! ## Changes of a tree -/

theorem map_fst_putName (n : String) (new : Entry) : ∀ es : List (String × Entry),
    (putName n new es).map Prod.fst =
      if n ∈ es.map Prod.fst then es.map Prod.fst else es.map Prod.fst ++ [n]
  | [] => by simp [putName]
  | (m, e) :: es => by
    by_cases hm : m = n
    · simp [putName, hm]
    · have hrest := map_fst_putName n new es
      simp only [putName, beq_eq_false_iff_ne.mpr hm, Bool.false_eq_true, if_false, List.map_cons,
        List.mem_cons, Ne.symm hm, false_or, hrest]
      split <;> rfl

theorem mem_putName {n : String} {new : Entry} {x : String × Entry} :
    ∀ {es : List (String × Entry)}, x ∈ putName n new es → x.2 = new ∨ x ∈ es
  | [], hx => by
    obtain rfl := List.mem_singleton.mp hx
    exact .inl rfl
  | (m, e) :: es, hx => by
    rw [putName] at hx
    split at hx
    · rcases List.mem_cons.mp hx with rfl | hx
      · exact .inl rfl
      · exact .inr (List.mem_cons_of_mem _ hx)
    · rcases List.mem_cons.mp hx with rfl | hx
      · exact .inr List.mem_cons_self
      · exact (mem_putName hx).imp_right (List.mem_cons_of_mem _)

theorem proper_putName {n : String} {new : Entry} {es : List (String × Entry)} (h : (dir es).Proper)
    (hnew : new.Proper) : (dir (putName n new es)).Proper := by
  obtain ⟨hnodup, hall⟩ := proper_dir_iff.mp h
  refine proper_dir_iff.mpr ⟨?_, fun x hx => ?_⟩
  · rw [map_fst_putName]
    split
    · exact hnodup
    · next hn =>
      refine List.nodup_append.mpr ⟨hnodup, by simp, fun a ha b hb heq => hn ?_⟩
      rwa [← List.mem_singleton.mp hb, ← heq]
  · rcases mem_putName hx with hx | hx
    · rw [hx]
      exact hnew
    · exact hall x hx

/-- What stands at a name of a proper directory is proper, also when it is made only now. -/
theorem Proper.lookup {es : List (String × Entry)} (h : (dir es).Proper) (n : String) :
    ((es.lookup n).getD (dir [])).Proper := by
  cases hl : es.lookup n with
  | none => exact proper_dir_iff.mpr ⟨List.nodup_nil, by simp⟩
  | some e => exact (proper_dir_iff.mp h).2 _ (mem_of_lookup hl)

theorem Proper.put {new : Entry} (hnew : new.Proper) : ∀ (p : Place) {t : Entry}, t.Proper →
    (t.put p new).Proper
  | [], t, _ => by
    rw [Entry.put]
    exact hnew
  | n :: p, file content, h => h
  | n :: p, dir es, h => proper_putName h (Proper.put hnew p (h.lookup n))

theorem Proper.remove : ∀ (p : Place) {t : Entry}, t.Proper → (t.remove p).Proper
  | [], t, h => by
    rw [Entry.remove]
    exact h
  | n :: p, file content, h => h
  | [n], dir es, h => by
    obtain ⟨hnodup, hall⟩ := proper_dir_iff.mp h
    exact proper_dir_iff.mpr ⟨hnodup.sublist (List.filter_sublist.map _),
      fun x hx => hall x (List.mem_filter.mp hx).1⟩
  | n :: m :: p, dir es, h => by
    have hbelow := h.lookup n
    cases hl : es.lookup n with
    | none => simpa [Entry.remove, hl] using h
    | some e =>
      rw [hl, Option.getD_some] at hbelow
      simpa [Entry.remove, hl] using proper_putName h (Proper.remove (m :: p) hbelow)

end Entry

namespace FileAction

/-! ## Rules -/

/-- An operation that leaves a proper tree as a proper tree, also when it fails. -/
def KeepsProper {α : Type} (a : FileAction α) : Prop :=
  ∀ d, d.top.Proper → Ends a d (fun _ d' => d'.top.Proper) (fun _ d' => d'.top.Proper)

section Rules

variable {α β : Type}

theorem keepsProper_pure (x : α) : KeepsProper (pure x : FileAction α) := fun _ h => ends_pure.mpr h

theorem keepsProper_throw (e : FileError) : KeepsProper (throw e : FileAction α) := fun _ h =>
  ends_throw.mpr h

theorem keepsProper_look (question : Disk → Except FileError α) : KeepsProper (look question) := fun _ h =>
  ends_look.mpr ⟨fun _ _ => h, fun _ _ => h⟩

theorem keepsProper_change {f : Entry → Entry} (h : ∀ t, t.Proper → (f t).Proper) :
    KeepsProper (change f) := fun _ ht => ends_change.mpr (h _ ht)

theorem KeepsProper.bind {a : FileAction β} {f : β → FileAction α} (ha : KeepsProper a)
    (hf : ∀ x, KeepsProper (f x)) : KeepsProper (a >>= f) := fun d h =>
  ends_bind.mpr ((ha d h).mono (fun x d' h' => hf x d' h') fun _ _ h' => h')

theorem KeepsProper.tryCatch {a : FileAction α} {f : FileError → FileAction α} (ha : KeepsProper a)
    (hf : ∀ e, KeepsProper (f e)) : KeepsProper (tryCatch a f) := fun d h =>
  ends_tryCatch.mpr ((ha d h).mono (fun _ _ h' => h') fun e d' h' => hf e d' h')

/-- Nothing is done behind an error. -/
theorem keepsProper_throw_bind (e : FileError) (f : β → FileAction α) : KeepsProper (throw e >>= f) :=
  fun _ h => ends_bind.mpr (ends_throw.mpr h)

theorem KeepsProper.ite {c : Prop} [Decidable c] {a b : FileAction α} (ha : KeepsProper a)
    (hb : KeepsProper b) : KeepsProper (if c then a else b) := by
  split
  · exact ha
  · exact hb

/-- A check in front of the rest of an operation. -/
theorem KeepsProper.guard {c : Prop} [Decidable c] {e : FileError} {f : Unit → FileAction α}
    (h : KeepsProper (f ())) : KeepsProper (if c then throw e >>= f else f ()) :=
  .ite (keepsProper_throw_bind e f) h

/-- What is read from a disk may be used later, and it comes from a proper tree. -/
theorem keepsProper_disk_bind {f : Disk → FileAction α} (h : ∀ d, d.top.Proper → KeepsProper (f d)) :
    KeepsProper (disk >>= f) := fun d hd => ends_bind.mpr (ends_disk.mpr (h d hd d hd))

end Rules

/-! ## Operations -/

theorem proper_empty : (dir []).Proper := proper_dir_iff.mpr ⟨List.nodup_nil, by simp⟩

theorem keepsProper_put {p : Place} {new : Entry} (h : new.Proper) :
    KeepsProper (change fun top => top.put p new) := keepsProper_change fun _ => h.put p

theorem keepsProper_remove (p : Place) : KeepsProper (change fun top => top.remove p) :=
  keepsProper_change fun _ => Proper.remove p

theorem createDirectory_proper (r : Route) : KeepsProper (createDirectory r) := by
  unfold createDirectory
  split
  · refine (keepsProper_look _).bind fun x => ?_
    dsimp only
    exact .guard (.guard (keepsProper_put proper_empty))
  · exact (keepsProper_look _).bind fun _ => keepsProper_throw _

theorem leadsToDirectory_proper (r : Route) : KeepsProper (leadsToDirectory r) := by
  refine keepsProper_disk_bind fun d _ => ?_
  split
  · exact keepsProper_pure _
  · exact keepsProper_pure _

theorem ensureDirectory_proper (r : Route) : KeepsProper (ensureDirectory r) := by
  refine (createDirectory_proper r).tryCatch fun e => (leadsToDirectory_proper r).bind fun b => ?_
  exact .ite (keepsProper_pure _) (keepsProper_throw _)

theorem createDirectoriesWithin_proper : ∀ (n : Nat) (r : Route), KeepsProper (createDirectoriesWithin r n)
  | 0, r => ensureDirectory_proper r
  | n + 1, r => by
    refine (ensureDirectory_proper r).tryCatch fun e => .ite ?_ (keepsProper_throw _)
    exact (createDirectoriesWithin_proper n r.parent).bind fun _ => ensureDirectory_proper r

theorem createDirectories_proper (r : Route) : KeepsProper (createDirectories r) :=
  .ite (keepsProper_pure _) (createDirectoriesWithin_proper _ r)

theorem target_proper (r : Route) : KeepsProper (target r) := by
  unfold target
  split
  · exact (keepsProper_look _).bind fun _ => keepsProper_pure _
  · exact (keepsProper_look _).bind fun _ => keepsProper_throw _

theorem openFile_proper (r : Route) (onlyNew : Bool) : KeepsProper (openFile r onlyNew) := by
  unfold openFile
  dsimp only
  refine .ite ((keepsProper_look _).bind fun _ => keepsProper_throw_bind _ _) ?_
  refine (target_proper r).bind fun x => .guard (keepsProper_disk_bind fun d _ => ?_)
  have hmake : KeepsProper (change (fun top => top.put (x.1 ++ [x.2]) (file [])) >>= fun _ =>
      pure (x.1 ++ [x.2])) := (keepsProper_put (proper_file [])).bind fun _ => keepsProper_pure _
  split
  · exact keepsProper_throw_bind _ _
  · exact .guard hmake
  · exact hmake

theorem write_proper (path : String) (content : Bytes) : KeepsProper (write path content) :=
  (openFile_proper _ _).bind fun _ => keepsProper_put (proper_file content)

theorem writeTemporary_proper (directory : Route) (content : Bytes) :
    KeepsProper (writeTemporary directory content) := by
  refine (keepsProper_look _).bind fun x => ?_
  dsimp only
  cases x.2 with
  | file _ => exact keepsProper_throw _
  | dir _ => exact (keepsProper_put (proper_file content)).bind fun _ => keepsProper_pure _

theorem probe_proper (r : Route) : KeepsProper (probe r) := by
  refine keepsProper_disk_bind fun d _ => ?_
  split
  · exact keepsProper_pure _
  · exact (openFile_proper r true).bind fun _ => keepsProper_pure _
  · exact keepsProper_throw _

theorem rename_proper (source : Place) (r : Route) : KeepsProper (rename source r) := by
  unfold rename
  split
  · exact (keepsProper_look _).bind fun _ => keepsProper_throw _
  · refine (keepsProper_look _).bind fun x => ?_
    dsimp only
    refine .guard (.guard (keepsProper_disk_bind fun d hd => ?_))
    split
    · exact keepsProper_throw _
    · next file hfile =>
      exact keepsProper_change fun t ht => (hd.at? hfile).put _ (Proper.remove _ ht)
  · exact keepsProper_throw _

theorem replace_proper (path : String) (directory : Route) (content : Bytes) :
    KeepsProper (replace path directory content) := by
  refine (writeTemporary_proper directory content).bind fun temporary => ?_
  refine KeepsProper.bind (.tryCatch (probe_proper _) fun e => ?_) fun created => .tryCatch (rename_proper _ _) fun e => ?_
  · exact (keepsProper_remove _).bind fun _ => keepsProper_throw _
  · refine (keepsProper_remove _).bind fun _ => .ite ?_ (keepsProper_throw _)
    refine (keepsProper_look _).bind fun _ => ?_
    exact (keepsProper_remove _).bind fun _ => keepsProper_throw _

end FileAction

/-! ## Runs -/

open FileAction

theorem Generation.writeHelper_proper (c : Config) (output : String) (stubs : List StubClass) :
    KeepsProper (writeHelper c output stubs) :=
  (createDirectories_proper _).bind fun _ => .ite (replace_proper _ _ _) (write_proper _ _)

theorem FileAction.KeepsProper.run {α : Type} {a : FileAction α} (h : KeepsProper a) {d : Disk}
    (hd : d.top.Proper) : (a.run.run d).2.top.Proper := by
  have hends := h d hd
  rcases hrun : a.run.run d with ⟨_ | _, d'⟩
  · exact hends.err_of_run hrun
  · exact hends.ok_of_run hrun

theorem Generation.run_proper [Recovery] (c : Config) (r : Registry) {d : Disk} (h : d.top.Proper) :
    (Generation.run c r d).disk.top.Proper := by
  unfold Generation.run
  split
  · exact h
  · next omitted p _ =>
    have hwrite := (writeHelper_proper c p.report.output p.stubs).run h
    split
    · next hrun => rwa [hrun] at hwrite
    · next hrun => rwa [hrun] at hwrite

namespace CommandLine

theorem generateWith_proper [Recovery] (console : Console) (args : GenerateArgs) (c : Config) {d : Disk}
    (h : d.top.Proper) : (generateWith console d args c).disk.top.Proper := by
  have hrun := Generation.run_proper c (Registry.ofConfig c) h
  unfold generateWith
  dsimp only
  split
  · exact hrun
  split
  · exact hrun
  · exact hrun

theorem generate_proper [Recovery] (console : Console) (args : GenerateArgs) {d : Disk} (h : d.top.Proper) :
    (generate console d args).disk.top.Proper := by
  obtain hdisk | ⟨c, hc⟩ := generate_cases console d args
  · rwa [hdisk]
  · rw [hc]
    exact generateWith_proper console args c h

theorem init_proper (output : String) {d : Disk} (h : d.top.Proper) : (init d output).disk.top.Proper := by
  unfold init
  split
  · exact h
  have hmade := (createDirectories_proper (Route.ofPath output).parent).run h
  split
  · next hrun => rwa [hrun] at hmade
  · next d' hrun =>
    rw [hrun] at hmade
    have hwritten := (write_proper output (Utf8.bytesOf template)).run hmade
    split
    · next hwrite => rwa [hwrite] at hwritten
    · next hwrite => rwa [hwrite] at hwritten

/-- A command leaves a proper tree as a proper tree, whatever its exit code is. -/
theorem command_proper [Recovery] (console : Console) (command : Command) {d : Disk} (h : d.top.Proper) :
    (command.run console d).disk.top.Proper := by
  cases command with
  | generate args => exact generate_proper console args h
  | init output => exact init_proper output h

/-- The disks that commands make of a disk. -/
inductive Reached [Recovery] (console : Console) (d : Disk) : Disk → Prop where
  | start : Reached console d d
  | next {d' : Disk} (command : Command) : Reached console d d' →
      Reached console d (command.run console d').disk

theorem Reached.proper [Recovery] {console : Console} {d d' : Disk} (h : Reached console d d')
    (hd : d.top.Proper) : d'.top.Proper := by
  induction h with
  | start => exact hd
  | next command _ ih => exact command_proper console command ih

/-- Whatever commands have been carried out on a proper tree, a walk of one of its directories takes up
the files at the places that are asked for, and no others. -/
theorem Reached.mem_scanned_iff [Recovery] {console : Console} {d d' : Disk} (h : Reached console d d')
    (hd : d.top.Proper) {path : String} {excluded : List (List Glob.Token)} {entries : List (String × Entry)}
    (hdir : d'.entryAt path = .ok (dir entries)) {names : Place} {content : Bytes} :
    ((names, content) ∈ (scanned (dir entries)).filter fun f => takesUp path excluded f.1) ↔
      (dir entries).at? names = some (file content) ∧ IsSource excluded names := by
  obtain ⟨q, hl⟩ := Disk.entryAt_eq_ok_iff.mp hdir
  exact mem_scanned_takesUp_iff ((h.proper hd).at? (Disk.locate_ok hl).1)

end CommandLine

end FacadeStubs
