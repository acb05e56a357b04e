import FacadeStubs.Generation
import FacadeStubs.Proofs.FileTree.Walk
import FacadeStubs.Proofs.Text.ByteOrder
import Mathlib.Data.List.Chain
import Mathlib.Data.List.Destutter

/-!
# The blocks of a helper file

A helper file is a row of namespace blocks. The writer opens a block where the namespace changes, so the
blocks are the maximal runs of classes with the same namespace, in the order in which the classes are
written; sorting them by namespace first makes one block of each namespace.

* `helperText_of_runs`: the text of a helper file, block by block;
* `exists_runs`: classes in any order make blocks;
* `groupedBlocks_of_runs`: sorted classes make one block for each namespace, in the order of the bytes,
  with the classes in the order they had before.
-/
namespace FacadeStubs

/-- A namespace block: the classes of one namespace that stand together. -/
structure Block where
  namespaceName : String
  classes : List StubClass
  ne_nil : classes ≠ []
  same : ∀ s ∈ classes, s.namespaceName = namespaceName

namespace Block

/-- The line that opens a block, with the name of its namespace if that has one. -/
def headLine (namespaceName : String) : String :=
  if namespaceName = "" then "namespace \x7b\n\n" else "namespace " ++ namespaceName ++ " \x7b\n\n"

/-- A block as text: the line that opens it, its classes and the line that closes it. -/
def text (b : Block) : String :=
  headLine b.namespaceName ++ joined "" (b.classes.map StubWriter.classText) ++ "\x7d\n\n"

theorem blockHeader_eq (namespaceName : String) :
    StubWriter.blockHeader namespaceName = headLine namespaceName := by
  simp only [StubWriter.blockHeader, headLine, String.isEmpty_iff]

/-- A block of one class. -/
def single (s : StubClass) : Block where
  namespaceName := s.namespaceName
  classes := [s]
  ne_nil := by simp
  same := by simp

/-- A block with one more class in front. -/
def push (s : StubClass) (b : Block) (h : s.namespaceName = b.namespaceName) : Block where
  namespaceName := b.namespaceName
  classes := s :: b.classes
  ne_nil := by simp
  same := by
    intro t ht
    rcases List.mem_cons.mp ht with rfl | ht
    · exact h
    · exact b.same t ht

end Block

/-- A file of blocks: the tag that opens it, and one block behind the other. -/
def fileText (blocks : List Block) : String := "<?php\n\n" ++ joined "" (blocks.map Block.text)

/-- The class texts of a file of blocks. -/
def classTexts (blocks : List Block) : List String :=
  blocks.flatMap fun b => b.classes.map StubWriter.classText

/-- Blocks that are the maximal runs of classes with one namespace, in the order of the classes. -/
structure Runs (stubs : List StubClass) (blocks : List Block) : Prop where
  classes : blocks.flatMap Block.classes = stubs
  maximal : blocks.IsChain fun a b => a.namespaceName ≠ b.namespaceName

/-- Blocks that gather the classes by namespace: one block for each namespace, in ascending order of
bytes, with its classes in their order. -/
structure GroupedBlocks (stubs : List StubClass) (blocks : List Block) : Prop where
  ascending : blocks.Pairwise fun a b =>
    Utf8.bytesOf a.namespaceName < Utf8.bytesOf b.namespaceName
  namespaces : ∀ ns, (∃ b ∈ blocks, b.namespaceName = ns) ↔ ∃ s ∈ stubs, s.namespaceName = ns
  classes : ∀ b ∈ blocks, b.classes = stubs.filter fun s => s.namespaceName == b.namespaceName

/-! ## Writing -/

namespace StubWriter

/-- Texts without a separator stand one behind the other. -/
theorem joined_cons (t : String) (texts : List String) :
    joined "" (t :: texts) = t ++ joined "" texts := by
  cases texts with
  | nil => simp [joined]
  | cons s texts => simp [joined, String.intercalate_cons_cons]

/-- Classes of the namespace whose block is open are written into it. -/
theorem writeAll_append {ns : String} {classes : List StubClass}
    (h : ∀ s ∈ classes, s.namespaceName = ns) (rest : List StubClass) :
    writeAll ⟨some ns⟩ (classes ++ rest) =
      joined "" (classes.map classText) ++ writeAll ⟨some ns⟩ rest := by
  induction classes with
  | nil => simp [joined]
  | cons s classes ih =>
    rw [List.forall_mem_cons] at h
    have hwrite : write ⟨some ns⟩ s = (classText s, ⟨some ns⟩) := by simp [write, h.1]
    rw [List.cons_append, writeAll, hwrite, ih h.2, List.map_cons, joined_cons, String.append_assoc]

/-- A block of another namespace is opened behind the end of the one that is open. -/
theorem writeAll_block {w : StubWriter} {b : Block} (h : w.current ≠ some b.namespaceName)
    (rest : List StubClass) :
    writeAll w (b.classes ++ rest) = w.closing ++ blockHeader b.namespaceName ++
      joined "" (b.classes.map classText) ++ writeAll ⟨some b.namespaceName⟩ rest := by
  obtain ⟨s, classes, hclasses⟩ := List.exists_cons_of_ne_nil b.ne_nil
  have hsame := b.same
  rw [hclasses, List.forall_mem_cons] at hsame
  have hwrite : write w s = (w.closing ++ blockHeader b.namespaceName ++ classText s,
      ⟨some b.namespaceName⟩) := by
    simp [write, hsame.1, h]
  rw [hclasses, List.cons_append, writeAll, hwrite, writeAll_append hsame.2, List.map_cons, joined_cons]
  simp only [String.append_assoc]

/-- Blocks whose neighbours differ are written one after the other. -/
theorem writeAll_blocks {blocks : List Block} (hchain : blocks.IsChain fun a b =>
    a.namespaceName ≠ b.namespaceName) {w : StubWriter}
    (hopen : ∀ b ∈ blocks.head?, w.current ≠ some b.namespaceName) :
    writeAll w (blocks.flatMap Block.classes) = w.closing ++ joined "" (blocks.map Block.text) := by
  induction blocks generalizing w with
  | nil => simp [writeAll, joined]
  | cons b rest ih =>
    obtain ⟨hnext, hrest⟩ := List.isChain_cons.mp hchain
    have hopen' : ∀ b' ∈ rest.head?, some b.namespaceName ≠ some b'.namespaceName :=
      fun b' hb' heq => hnext b' hb' (Option.some.inj heq)
    rw [List.flatMap_cons, writeAll_block (hopen b rfl), ih hrest hopen', List.map_cons, joined_cons]
    simp only [Block.text, Block.blockHeader_eq, closing, blockEnd, Option.isSome_some, if_true,
      String.append_assoc]

end StubWriter

/-- The text of a helper file, block by block. -/
theorem helperText_of_runs {stubs : List StubClass} {blocks : List Block} (h : Runs stubs blocks) :
    helperText stubs = fileText blocks := by
  rw [helperText, fileText, ← h.classes, StubWriter.writeAll_blocks h.maximal (by simp)]
  simp [StubWriter.closing, StubWriter.opening]

/-- Classes in any order make blocks. -/
theorem exists_runs (stubs : List StubClass) : ∃ blocks, Runs stubs blocks := by
  induction stubs with
  | nil => exact ⟨[], rfl, .nil⟩
  | cons s stubs ih =>
    obtain ⟨blocks, rfl, hmaximal⟩ := ih
    cases blocks with
    | nil => exact ⟨[.single s], rfl, .singleton _⟩
    | cons b rest =>
      by_cases hs : s.namespaceName = b.namespaceName
      · exact ⟨b.push s hs :: rest, rfl, List.isChain_cons.mpr (List.isChain_cons.mp hmaximal)⟩
      · exact ⟨.single s :: b :: rest, rfl, List.isChain_cons_cons.mpr ⟨hs, hmaximal⟩⟩

/-- Of equal names in a row one is left. -/
theorem destutter_repeated {ns : String} {more : List String} (hmore : ∀ n ∈ more.head?, ns ≠ n) :
    ∀ {names : List String}, names ≠ [] → (∀ n ∈ names, n = ns) →
      (names ++ more).destutter (· ≠ ·) = ns :: more.destutter (· ≠ ·)
  | [n], _, h => by
    rw [h n (by simp)]
    cases more with
    | nil => rfl
    | cons m more => exact if_pos (hmore m rfl)
  | n :: n' :: names, _, h => by
    have hsame : n = n' := (h n (by simp)).trans (h n' (by simp)).symm
    have ih := destutter_repeated hmore (List.cons_ne_nil n' names)
      fun m hm => h m (List.mem_cons_of_mem _ hm)
    rw [List.cons_append, List.cons_append, List.destutter_cons_cons, if_neg (not_not.2 hsame), hsame,
      ← List.destutter_cons', ← List.cons_append, ih]

/-- The namespaces of the blocks are those of the classes, without repeats in a row. -/
theorem Runs.namespaces {stubs : List StubClass} {blocks : List Block} (h : Runs stubs blocks) :
    blocks.map (·.namespaceName) = (stubs.map (·.namespaceName)).destutter (· ≠ ·) := by
  obtain ⟨rfl, hmaximal⟩ := h
  induction blocks with
  | nil => rfl
  | cons b rest ih =>
    obtain ⟨hnext, hrest⟩ := List.isChain_cons.mp hmaximal
    have hnames : ∀ n ∈ b.classes.map (·.namespaceName), n = b.namespaceName := by
      simpa using b.same
    have hmore : ∀ n ∈ ((rest.flatMap Block.classes).map (·.namespaceName)).head?,
        b.namespaceName ≠ n := by
      cases rest with
      | nil => simp
      | cons b' rest =>
        obtain ⟨s, classes, hclasses⟩ := List.exists_cons_of_ne_nil b'.ne_nil
        have hsame := b'.same s (by simp [hclasses])
        simpa [hclasses, hsame] using hnext b' rfl
    rw [List.flatMap_cons, List.map_append, destutter_repeated hmore (by simpa using b.ne_nil) hnames,
      List.map_cons, ih hrest]

theorem Runs.classTexts_eq {stubs : List StubClass} {blocks : List Block} (h : Runs stubs blocks) :
    classTexts blocks = stubs.map StubWriter.classText := by
  rw [classTexts, ← h.classes, List.map_flatMap]

/-! ## Sorted classes -/

/-- Blocks of different namespaces hold all the classes of their namespaces. -/
theorem Runs.filter_eq {stubs : List StubClass} {blocks : List Block} (h : Runs stubs blocks)
    (hdistinct : blocks.Pairwise fun a b => a.namespaceName ≠ b.namespaceName) {b : Block}
    (hb : b ∈ blocks) : stubs.filter (fun s => s.namespaceName == b.namespaceName) = b.classes := by
  obtain ⟨before, after, rfl⟩ := List.append_of_mem hb
  obtain ⟨-, hafter, hbefore⟩ := List.pairwise_append.mp hdistinct
  rw [List.pairwise_cons] at hafter
  have hother : ∀ bs : List Block, (∀ a ∈ bs, a.namespaceName ≠ b.namespaceName) →
      (bs.flatMap Block.classes).filter (fun s => s.namespaceName == b.namespaceName) = [] := by
    intro bs hne
    simp only [List.filter_eq_nil_iff, List.mem_flatMap, beq_iff_eq]
    rintro s ⟨a, ha, hs⟩ heq
    exact hne a ha ((a.same s hs).symm.trans heq)
  have hown : b.classes.filter (fun s => s.namespaceName == b.namespaceName) = b.classes :=
    List.filter_eq_self.mpr fun s hs => beq_iff_eq.mpr (b.same s hs)
  rw [← h.classes, List.flatMap_append, List.flatMap_cons, List.filter_append, List.filter_append,
    hother before fun a ha => hbefore a ha b (List.mem_cons_self ..), hown,
    hother after fun a ha => (hafter.1 a ha).symm, List.nil_append, List.append_nil]

/-- Blocks in order ascend where neighbours differ. -/
theorem ascending_of_isChain {blocks : List Block}
    (hchain : blocks.IsChain fun a b => a.namespaceName ≠ b.namespaceName)
    (hle : blocks.Pairwise fun a b => a.namespaceName ≤ b.namespaceName) :
    blocks.Pairwise fun a b => a.namespaceName < b.namespaceName := by
  have hstrict : (blocks.map Block.namespaceName).IsChain (· < ·) := by
    induction hchain with
    | nil => exact .nil
    | singleton b => exact .singleton _
    | cons_cons hne _ ih =>
      rw [List.pairwise_cons] at hle
      exact .cons_cons (lt_of_le_of_ne (hle.1 _ (List.mem_cons_self ..)) hne) (ih hle.2)
  exact List.pairwise_map.mp (List.isChain_iff_pairwise.mp hstrict)

/-- In sorted classes each namespace has one run, and the runs ascend. -/
theorem Runs.ascending {stubs : List StubClass} {blocks : List Block} (h : Runs stubs blocks)
    (hsorted : stubs.Pairwise fun a b => a.namespaceName ≤ b.namespaceName) :
    blocks.Pairwise fun a b => a.namespaceName < b.namespaceName := by
  rw [← h.classes, List.pairwise_flatMap] at hsorted
  refine ascending_of_isChain h.maximal (hsorted.2.imp fun {a b} hab => ?_)
  obtain ⟨s, hs⟩ := List.exists_mem_of_ne_nil _ a.ne_nil
  obtain ⟨t, ht⟩ := List.exists_mem_of_ne_nil _ b.ne_nil
  rw [← a.same s hs, ← b.same t ht]
  exact hab s hs t ht

namespace Generation

theorem namespace_le_trans (a b c : StubClass) (hab : decide (a.namespaceName ≤ b.namespaceName))
    (hbc : decide (b.namespaceName ≤ c.namespaceName)) : decide (a.namespaceName ≤ c.namespaceName) :=
  decide_eq_true (le_trans (of_decide_eq_true hab) (of_decide_eq_true hbc))

theorem namespace_le_total (a b : StubClass) :
    decide (a.namespaceName ≤ b.namespaceName) || decide (b.namespaceName ≤ a.namespaceName) := by
  simpa using le_total a.namespaceName b.namespaceName

theorem ordered_perm (grouping : Grouping) (stubs : List StubClass) :
    (ordered grouping stubs).Perm stubs := by
  cases grouping with
  | grouped => exact List.mergeSort_perm _ _
  | interleaved => exact .refl _

theorem ordered_grouped_pairwise (stubs : List StubClass) :
    (ordered .grouped stubs).Pairwise fun a b => a.namespaceName ≤ b.namespaceName := by
  have hsorted := List.pairwise_mergeSort namespace_le_trans namespace_le_total stubs
  exact hsorted.imp of_decide_eq_true

/-- Classes that are in order stay where they are. -/
theorem ordered_grouped_of_pairwise {stubs : List StubClass}
    (h : stubs.Pairwise fun a b => a.namespaceName ≤ b.namespaceName) :
    ordered .grouped stubs = stubs :=
  List.mergeSort_of_pairwise (h.imp decide_eq_true)

/-- The classes of a namespace keep their order. -/
theorem ordered_grouped_filter (stubs : List StubClass) (ns : String) :
    (ordered .grouped stubs).filter (fun s => s.namespaceName == ns) =
      stubs.filter fun s => s.namespaceName == ns := by
  have hsame : (stubs.filter fun s => s.namespaceName == ns).Pairwise
      fun a b => a.namespaceName ≤ b.namespaceName := by
    refine List.pairwise_of_forall_mem_list fun a ha b hb => ?_
    simp only [List.mem_filter, beq_iff_eq] at ha hb
    exact le_of_eq (ha.2.trans hb.2.symm)
  exact (filter_mergeSort namespace_le_trans namespace_le_total _ stubs).trans
    (ordered_grouped_of_pairwise hsame)

end Generation

/-- Sorted classes make one block for each namespace, in the order of the bytes, with the classes in
the order they had before. -/
theorem groupedBlocks_of_runs {stubs : List StubClass} {blocks : List Block}
    (h : Runs (Generation.ordered .grouped stubs) blocks) :
    GroupedBlocks stubs blocks := by
  have hascending := h.ascending (Generation.ordered_grouped_pairwise stubs)
  refine ⟨hascending.imp Utf8.bytesOf_lt_iff.mpr, fun ns => ?_, fun b hb => ?_⟩
  · have hmem : ∀ s, s ∈ stubs ↔ ∃ b ∈ blocks, s ∈ b.classes := by
      intro s
      rw [← List.mem_flatMap, h.classes]
      exact (Generation.ordered_perm .grouped stubs).mem_iff.symm
    constructor
    · rintro ⟨b, hb, rfl⟩
      obtain ⟨s, hs⟩ := List.exists_mem_of_ne_nil _ b.ne_nil
      exact ⟨s, (hmem s).mpr ⟨b, hb, hs⟩, b.same s hs⟩
    · rintro ⟨s, hs, rfl⟩
      obtain ⟨b, hb, hsb⟩ := (hmem s).mp hs
      exact ⟨b, hb, (b.same s hsb).symm⟩
  · rw [← h.filter_eq (hascending.imp ne_of_lt) hb, Generation.ordered_grouped_filter]

end FacadeStubs
