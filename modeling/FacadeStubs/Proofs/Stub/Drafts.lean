import FacadeStubs.Proofs.Stub.Blocks

/-!
# A helper file while it is written

The writer gets the stub classes one at a time and remembers nothing but the namespace of the block that
is open. A draft is the text that it has written so far, together with the writer. What stands in a
draft are blocks, all of them closed but perhaps the last, and the writer knows the namespace of that
one.

* `Standing.next`: one more class goes into the block that is open, or closes it and opens another.
* `standing_after`: the blocks of a draft are the maximal runs of the classes written, and the last one
  is open.
* `streaming_groups`: written class by class, the helper file is what it is run by run.
-/
namespace FacadeStubs

/-! ## Blocks that are open -/

/-- The text of a block as long as it is open. -/
def Block.openText (b : Block) : String :=
  headLine b.namespaceName ++ joined "" (b.classes.map StubWriter.classText)

/-- A block with one more class at its end. -/
def Block.extend (b : Block) (s : StubClass) (h : s.namespaceName = b.namespaceName) : Block where
  namespaceName := b.namespaceName
  classes := b.classes ++ [s]
  ne_nil := by simp
  same := by
    intro t ht
    rcases List.mem_append.mp ht with ht | ht
    · exact b.same t ht
    · rw [List.mem_singleton.mp ht, h]

theorem Block.text_eq_openText (b : Block) : b.text = b.openText ++ StubWriter.blockEnd := rfl

theorem StubWriter.joined_append (texts more : List String) :
    joined "" (texts ++ more) = joined "" texts ++ joined "" more := by
  induction texts with
  | nil => simp [joined]
  | cons t texts ih => rw [List.cons_append, joined_cons, joined_cons, ih, String.append_assoc]

theorem StubWriter.joined_single (t : String) : joined "" [t] = t := by
  simp [joined]

theorem Block.openText_single (s : StubClass) :
    (Block.single s).openText = StubWriter.blockHeader s.namespaceName ++ StubWriter.classText s := by
  rw [openText, ← blockHeader_eq, single, List.map_singleton, StubWriter.joined_single]

theorem Block.openText_extend (b : Block) (s : StubClass) (h : s.namespaceName = b.namespaceName) :
    (b.extend s h).openText = b.openText ++ StubWriter.classText s := by
  rw [openText, extend, List.map_append, List.map_singleton, StubWriter.joined_append,
    StubWriter.joined_single, openText, String.append_assoc]

theorem fileText_snoc (closed : List Block) (b : Block) :
    fileText (closed ++ [b]) = fileText closed ++ b.text := by
  rw [fileText, List.map_append, List.map_singleton, StubWriter.joined_append,
    StubWriter.joined_single, fileText, String.append_assoc]

/-! ## Drafts -/

/-- What is written of a helper file, and the writer that goes on with it. -/
structure Draft where
  text : String
  writer : StubWriter

namespace Draft

/-- A helper file without a class. -/
def start : Draft := ⟨StubWriter.opening, {}⟩

/-- One more class is written. -/
def next (d : Draft) (s : StubClass) : Draft := ⟨d.text ++ (d.writer.write s).1, (d.writer.write s).2⟩

/-- The draft after some classes. -/
def after (stubs : List StubClass) : Draft := stubs.foldl next start

/-- The block that is open is closed. -/
def finish (d : Draft) : Draft := ⟨d.text ++ d.writer.closing, {}⟩

/-- A draft in which blocks stand that are closed, and behind them one that is open, or none. -/
structure Standing (d : Draft) (closed : List Block) (last : Option Block) : Prop where
  text : d.text = fileText closed ++ (last.map Block.openText).getD ""
  current : d.writer.current = last.map Block.namespaceName

variable {d : Draft} {closed : List Block} {last : Option Block}

theorem standing_start : start.Standing [] none :=
  ⟨by simp [start, StubWriter.opening, fileText, joined], rfl⟩

/-- A class of the namespace that is open goes into its block. -/
theorem Standing.next_same {b : Block} (h : d.Standing closed (some b)) {s : StubClass}
    (hs : s.namespaceName = b.namespaceName) : (d.next s).Standing closed (some (b.extend s hs)) := by
  have hwrite : d.writer.write s = (StubWriter.classText s, d.writer) := by
    simp [StubWriter.write, h.current, hs]
  constructor
  · show d.text ++ (d.writer.write s).1 = fileText closed ++ (b.extend s hs).openText
    rw [hwrite, h.text, Block.openText_extend, ← String.append_assoc]
    rfl
  · show (d.writer.write s).2.current = some b.namespaceName
    rw [hwrite, h.current]
    rfl

/-- What is open is closed with the line that ends a block. -/
theorem Standing.text_closing (h : d.Standing closed last) :
    d.text ++ d.writer.closing = fileText (closed ++ last.toList) := by
  cases last with
  | none => simp [StubWriter.closing, h.current, h.text]
  | some b =>
    have hend : d.writer.closing = StubWriter.blockEnd := by simp [StubWriter.closing, h.current]
    rw [hend, h.text, Option.toList_some, fileText_snoc, Block.text_eq_openText, ← String.append_assoc]
    rfl

/-- A class of another namespace closes the block that is open and opens one of its own. -/
theorem Standing.next_other (h : d.Standing closed last) {s : StubClass}
    (hs : ∀ b ∈ last, b.namespaceName ≠ s.namespaceName) :
    (d.next s).Standing (closed ++ last.toList) (some (.single s)) := by
  have hcurrent : d.writer.current ≠ some s.namespaceName := by
    rw [h.current]
    cases last with
    | none => exact nofun
    | some b => exact fun heq => hs b rfl (Option.some.inj heq)
  have hwrite : d.writer.write s =
      (d.writer.closing ++ StubWriter.blockHeader s.namespaceName ++ StubWriter.classText s,
        ⟨some s.namespaceName⟩) := by
    simp [StubWriter.write, hcurrent]
  constructor
  · show d.text ++ (d.writer.write s).1 =
      fileText (closed ++ last.toList) ++ (Block.single s).openText
    rw [hwrite, Block.openText_single, ← h.text_closing]
    simp only [String.append_assoc]
  · show (d.writer.write s).2.current = some s.namespaceName
    rw [hwrite]

/-- At the end no block is open. -/
theorem Standing.finish (h : d.Standing closed last) :
    d.finish.Standing (closed ++ last.toList) none := by
  constructor
  · show d.text ++ d.writer.closing = fileText (closed ++ last.toList) ++ ""
    rw [h.text_closing, String.append_empty]
  · rfl

end Draft

/-! ## Runs of classes -/

/-- A class of the namespace of the last run goes on the run. -/
theorem Runs.extend {stubs : List StubClass} {closed : List Block} {b : Block}
    (h : Runs stubs (closed ++ [b])) {s : StubClass} (hs : s.namespaceName = b.namespaceName) :
    Runs (stubs ++ [s]) (closed ++ [b.extend s hs]) := by
  constructor
  · rw [← h.classes]
    simp [Block.extend]
  · obtain ⟨hclosed, -, hlast⟩ := List.isChain_append.mp h.maximal
    refine List.isChain_append.mpr ⟨hclosed, .singleton _, fun a ha c hc => ?_⟩
    obtain rfl : b.extend s hs = c := Option.some.inj hc
    exact hlast a ha b rfl

/-- A class of another namespace begins a run. -/
theorem Runs.snoc {stubs : List StubClass} {blocks : List Block} (h : Runs stubs blocks)
    {s : StubClass} (hs : ∀ b ∈ blocks.getLast?, b.namespaceName ≠ s.namespaceName) :
    Runs (stubs ++ [s]) (blocks ++ [.single s]) := by
  constructor
  · rw [← h.classes]
    simp [Block.single]
  · refine List.isChain_append.mpr ⟨h.maximal, .singleton _, fun b hb c hc => ?_⟩
    obtain rfl : Block.single s = c := Option.some.inj hc
    exact hs b hb

/-! ## Any number of calls -/

namespace Draft

/-- What a draft holds after some classes: their runs, the last one open. -/
structure Holds (d : Draft) (stubs : List StubClass) (closed : List Block) (last : Option Block) :
    Prop where
  standing : d.Standing closed last
  runs : Runs stubs (closed ++ last.toList)
  /-- A block is open as soon as a class is written. -/
  started : last.isSome ↔ stubs ≠ []

variable {d : Draft} {stubs : List StubClass} {closed : List Block} {last : Option Block}

theorem Holds.next (h : d.Holds stubs closed last) (s : StubClass) :
    ∃ closed' last', (d.next s).Holds (stubs ++ [s]) closed' last' := by
  by_cases hsame : ∃ b ∈ last, b.namespaceName = s.namespaceName
  · obtain ⟨b, hb, hs⟩ := hsame
    obtain rfl : last = some b := hb
    exact ⟨closed, some (b.extend s hs.symm), h.standing.next_same hs.symm, h.runs.extend hs.symm,
      by simp⟩
  · have hother : ∀ b ∈ last, b.namespaceName ≠ s.namespaceName :=
      fun b hb heq => hsame ⟨b, hb, heq⟩
    have hlast : ∀ b ∈ (closed ++ last.toList).getLast?, b.namespaceName ≠ s.namespaceName := by
      cases last with
      | some b => simpa using hother
      | none =>
        -- before the first class there is no block at all
        have hnil : stubs = [] := by simpa using h.started
        have hclosed : closed = [] := by
          refine List.eq_nil_iff_forall_not_mem.mpr fun b hb => b.ne_nil ?_
          have hclasses := h.runs.classes
          rw [hnil, List.flatMap_eq_nil_iff] at hclasses
          exact hclasses b (List.mem_append_left _ hb)
        simp [hclosed]
    exact ⟨closed ++ last.toList, some (.single s), h.standing.next_other hother, h.runs.snoc hlast,
      by simp⟩

/-- After any classes the draft holds their runs, all closed but the last. -/
theorem holds_after (stubs : List StubClass) :
    ∃ closed last, (after stubs).Holds stubs closed last := by
  induction stubs using List.reverseRecOn with
  | nil => exact ⟨[], none, standing_start, ⟨rfl, .nil⟩, by simp⟩
  | append_singleton stubs s ih =>
    obtain ⟨closed, last, h⟩ := ih
    rw [after, List.foldl_append]
    exact h.next s

end Draft

/-- Class by class the writer writes what it writes of a list. -/
theorem Draft.text_foldl (stubs : List StubClass) (d : Draft) :
    (stubs.foldl Draft.next d).finish.text = d.text ++ d.writer.writeAll stubs := by
  induction stubs generalizing d with
  | nil => rfl
  | cons s stubs ih => rw [List.foldl_cons, ih, StubWriter.writeAll, next, String.append_assoc]

/-- After any number of classes the helper file holds their maximal runs, each as a block: all are
closed but the last, and that one is open as soon as there is a class. At the end none is open, and the
file is the opening line with one block behind the other. -/
theorem streaming_groups (stubs : List StubClass) :
    (∀ n, ∃ closed last, (Draft.after (stubs.take n)).Holds (stubs.take n) closed last) ∧
      ∃ blocks, Runs stubs blocks ∧ (Draft.after stubs).finish.Standing blocks none ∧
        helperText stubs = "<?php\n\n" ++ joined "" (blocks.map Block.text) ∧
        ∀ b ∈ blocks, b.text = (if b.namespaceName = "" then "namespace \x7b\n\n"
            else "namespace " ++ b.namespaceName ++ " \x7b\n\n") ++
          joined "" (b.classes.map StubWriter.classText) ++ "\x7d\n\n" := by
  refine ⟨fun n => Draft.holds_after _, ?_⟩
  obtain ⟨closed, last, h⟩ := Draft.holds_after stubs
  refine ⟨closed ++ last.toList, h.runs, h.standing.finish, ?_, fun _ _ => rfl⟩
  calc helperText stubs = (Draft.after stubs).finish.text := (Draft.text_foldl stubs .start).symm
    _ = fileText (closed ++ last.toList) := h.standing.text_closing

end FacadeStubs
