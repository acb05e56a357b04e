import FacadeStubs.Proofs.Reader.Operands

/-!
# Texts that readers read

`Reads source tagEnds r t ok post` says that a reader takes exactly the text `t`, wherever it stands
in the source in front of what `ok` admits, and gives a value of which `post` holds. The rules follow
the combinators, so that a text is read as it is put together.

Results:
* `IsGap`: blanks, comments between marks and comments up to the end of their line, which all looks ahead
  and all tokens pass over (`Next`).
* `Reads.bind`, `Reads.look`: one reader behind another, and a look ahead in front of a reader.
* `reads_symbol`, `reads_keyword`, `reads_identifier`, `reads_nodeOf`, `reads_between`: tokens and
  nodes with a gap in front of them.
* `Decides`: texts that are read under a condition, and stop the reader without it.
-/
namespace FacadeStubs.Php

open Lexical Reader

/-! ## Gaps -/

/-- The inside of a comment between marks: no NUL byte, and no mark that ends it earlier. -/
def IsCommented (t : Bytes) : Prop := (∀ a ∈ t, a ≠ 0) ∧ ¬ [42, 47] <:+: t ++ [42]

/-- What is left of a line that a comment may reach up to: no line break, no NUL byte, and no question
mark, which could begin a closing tag. -/
def IsLineRest (t : Bytes) : Prop := ∀ a ∈ t, a ≠ 10 ∧ a ≠ 13 ∧ a ≠ 0 ∧ a ≠ 63

/-- Blanks, comments between marks and comments up to the end of their line. -/
inductive IsGap : Bytes → Prop
  | nil : IsGap []
  | space {a : UInt8} {g : Bytes} : isSpace a = true → IsGap g → IsGap (a :: g)
  | comment {t g : Bytes} : IsCommented t → IsGap g → IsGap (47 :: 42 :: (t ++ 42 :: 47 :: g))
  | slashes {t g : Bytes} : IsLineRest t → IsGap g → IsGap (47 :: 47 :: (t ++ 10 :: g))
  | hash {t g : Bytes} : IsLineRest t → t.head? ≠ some 91 → IsGap g → IsGap (35 :: (t ++ 10 :: g))

theorem isCommented_of_ne_slash {t : Bytes} (h : ∀ a ∈ t, a ≠ 47 ∧ a ≠ 0) : IsCommented t := by
  refine ⟨fun a ha => (h a ha).2, fun hend => ?_⟩
  have hslash : (47 : UInt8) ∈ t ++ [42] := hend.subset (by simp)
  simp only [List.mem_append, List.mem_singleton] at hslash
  rcases hslash with hslash | hslash
  · exact (h 47 hslash).1 rfl
  · cases hslash

theorem isLabelByte_space {a : UInt8} (h : isSpace a = true) : isLabelByte a = false := by
  simp only [isSpace, Bool.or_eq_true, Bool.and_eq_true, decide_eq_true_eq, beq_iff_eq] at h
  simp only [isLabelByte, isLetter, isDigit]
  grind

theorem isGap_spaces : ∀ {g : Bytes}, g.all isSpace = true → IsGap g
  | [], _ => .nil
  | a :: g, h => by
    simp only [List.all_cons, Bool.and_eq_true] at h
    exact .space h.1 (isGap_spaces h.2)

namespace Lexical

theorem runLength_pending {one : Bytes → Nat} (p w : Bytes) :
    runLength one p.length (p ++ w) = p.length + runLength one 0 w := by
  induction p with
  | nil => simp
  | cons a p ih =>
    rw [List.length_cons, List.cons_append, runLength, ih]
    omega

/-- A piece at the front is passed over as a whole. -/
theorem runLength_piece {one : Bytes → Nat} {p w : Bytes} (hp : p ≠ [])
    (h : one (p ++ w) = p.length) : runLength one 0 (p ++ w) = p.length + runLength one 0 w := by
  obtain ⟨a, p, rfl⟩ := List.exists_cons_of_ne_nil hp
  rw [List.length_cons] at h
  rw [List.cons_append] at h ⊢
  rw [runLength, h]
  dsimp only
  rw [runLength_pending, List.length_cons]
  omega

theorem blockComment?_append {t u : Bytes} (ht : IsCommented t) :
    blockComment? (t ++ 42 :: 47 :: u) = some (t.length + 2) := by
  induction t with
  | nil => rfl
  | cons a t ih =>
    obtain ⟨hnul, hend⟩ := ht
    have hnext : (a == 42 && (t ++ 42 :: 47 :: u).head? == some 47) = false := by
      rw [Bool.eq_false_iff]
      intro hboth
      simp only [Bool.and_eq_true, beq_iff_eq] at hboth
      obtain ⟨rfl, hslash⟩ := hboth
      cases t with
      | nil => cases hslash
      | cons b t =>
        obtain rfl : b = 47 := by simpa using hslash
        exact hend (List.prefix_append [42, 47] (t ++ [42])).isInfix
    have hrest : IsCommented t := ⟨fun b hb => hnul b (List.mem_cons_of_mem a hb), fun h =>
      hend (h.trans (List.suffix_cons a (t ++ [42])).isInfix)⟩
    rw [List.cons_append, blockComment?, ih hrest, hnext]
    simp only [beq_eq_false_iff_ne.2 (hnul a List.mem_cons_self), Bool.false_eq_true, if_false,
      Option.map_some, List.length_cons, Nat.add_right_comm]

theorem lineComment_append {t u : Bytes} (ht : IsLineRest t) : lineComment (t ++ 10 :: u) = t.length := by
  induction t with
  | nil => rw [List.nil_append, lineComment.eq_def]; rfl
  | cons a t ih =>
    obtain ⟨h10, h13, h0, h63⟩ := ht a List.mem_cons_self
    rw [List.cons_append, lineComment.eq_def]
    simp [h10, h13, h0, h63, ih fun b hb => ht b (List.mem_cons_of_mem a hb)]

theorem commentLength_block {t u : Bytes} (ht : IsCommented t) (attributes : Bool) :
    commentLength attributes (47 :: 42 :: (t ++ 42 :: 47 :: u)) = t.length + 4 := by
  simp [commentLength, blockComment?_append ht]

theorem commentLength_slashes {t u : Bytes} (ht : IsLineRest t) (attributes : Bool) :
    commentLength attributes (47 :: 47 :: (t ++ 10 :: u)) = t.length + 2 := by
  simp [commentLength, lineComment_append ht]

theorem commentLength_hash {t u : Bytes} (ht : IsLineRest t) (hopen : t.head? ≠ some 91)
    (attributes : Bool) : commentLength attributes (35 :: (t ++ 10 :: u)) = t.length + 1 := by
  cases t with
  | nil => rfl
  | cons b t =>
    obtain ⟨h10, h13, h0, h63⟩ := ht b List.mem_cons_self
    have h91 : b ≠ 91 := by simpa using hopen
    simp [commentLength, h10, h13, h0, h63, h91,
      lineComment_append fun c hc => ht c (List.mem_cons_of_mem b hc)]

/-- No byte but a question mark begins a stretch outside the tags. -/
theorem interpolationLength_of_ne {a : UInt8} {w : Bytes} (ha : a ≠ 63) :
    interpolationLength (a :: w) = 0 := by
  simp [interpolationLength, atClosingTag_of_ne ha]

theorem triviumLength_space {a : UInt8} {w : Bytes} (ha : isSpace a = true) (attributes : Bool) :
    triviumLength attributes (a :: w) = 1 := by
  have hblank : blankLength (a :: w) = 1 := by
    unfold blankLength
    exact if_pos (by simpa [isSpace] using ha)
  simp [triviumLength, hblank]

/-- A comment in front of anything is passed over as it is measured. -/
theorem triviumLength_comment {a : UInt8} {w : Bytes} (ha : a = 47 ∨ a = 35) (attributes : Bool) :
    triviumLength attributes (a :: w) = commentLength attributes (a :: w) := by
  have hblank : blankLength (a :: w) = 0 := by
    rcases ha with rfl | rfl <;> exact blankLength_printed (by decide) (by decide)
  simp [triviumLength, hblank]

/-- What measures blanks and comments where no stretch outside the tags comes. -/
def MeasuresTrivia (attributes : Bool) (one : Bytes → Nat) : Prop :=
  ∀ w, interpolationLength w = 0 → one w = triviumLength attributes w

theorem measuresTrivia_gapLength (attributes : Bool) : MeasuresTrivia attributes (gapLength attributes) :=
  fun w hw => by simp [gapLength, hw]

theorem behindSpace?_line {t u : Bytes} (ht : IsLineRest t) :
    behindSpace? true (t ++ 10 :: u) = behindSpace? false u := by
  induction t with
  | nil => rfl
  | cons a t ih =>
    obtain ⟨h10, -, h0, -⟩ := ht a List.mem_cons_self
    rw [List.cons_append, behindSpace?.eq_def]
    simp [h10, h0, ih fun b hb => ht b (List.mem_cons_of_mem a hb)]

theorem gapsBeforeEnd_pending (asks : Bool) (p w : Bytes) :
    gapsBeforeEnd p.length asks (p ++ w) =
      (p.length + (gapsBeforeEnd 0 asks w).1, (gapsBeforeEnd 0 asks w).2) := by
  induction p with
  | nil => simp
  | cons a p ih =>
    rw [List.length_cons, List.cons_append, gapsBeforeEnd, ih]
    simp
    omega

end Lexical

namespace IsGap

variable {g w : Bytes}

theorem runLength (hg : IsGap g) (hw : BeginsToken w) {one : Bytes → Nat} {attributes : Bool}
    (hone : MeasuresTrivia attributes one) : runLength one 0 (g ++ w) = g.length := by
  have hspace : ∀ {a : UInt8} {v : Bytes}, isSpace a = true →
      Lexical.runLength one 0 (a :: v) = 1 + Lexical.runLength one 0 v := by
    intro a v ha
    have hne : a ≠ 63 := by
      rintro rfl
      cases ha
    exact runLength_piece (p := [a]) (by simp)
      ((hone _ (interpolationLength_of_ne hne)).trans (triviumLength_space ha attributes))
  have hcomment : ∀ {a : UInt8} {p v : Bytes}, a = 47 ∨ a = 35 →
      commentLength attributes (a :: (p ++ v)) = p.length + 1 →
      Lexical.runLength one 0 (a :: (p ++ v)) = p.length + 1 + Lexical.runLength one 0 v := by
    intro a p v ha hlength
    have hne : a ≠ 63 := by rcases ha with rfl | rfl <;> decide
    exact runLength_piece (p := a :: p) (by simp) ((hone _ (interpolationLength_of_ne hne)).trans
      ((triviumLength_comment ha attributes).trans hlength))
  induction hg with
  | nil =>
    exact BeginsToken.runLength
      ((hone w hw.interpolationLength).trans (hw.triviumLength attributes))
  | @space a g ha _ ih =>
    rw [List.cons_append, hspace ha, ih, List.length_cons, Nat.add_comm]
  | @comment t g ht _ ih =>
    have hlength := commentLength_block (u := g ++ w) ht attributes
    have hpiece := hcomment (p := 42 :: (t ++ [42, 47])) (v := g ++ w) (.inl rfl) (by simpa using hlength)
    simp [ih] at hpiece ⊢
    omega
  | @slashes t g ht _ ih =>
    have hlength := commentLength_slashes (u := g ++ w) ht attributes
    have hpiece := hcomment (p := 47 :: t) (v := 10 :: (g ++ w)) (.inl rfl) (by simpa using hlength)
    simp [hspace (a := 10) rfl, ih] at hpiece ⊢
    omega
  | @hash t g ht hopen _ ih =>
    have hlength := commentLength_hash (u := g ++ w) ht hopen attributes
    have hpiece := hcomment (p := t) (v := 10 :: (g ++ w)) (.inr rfl) hlength
    simp [hspace (a := 10) rfl, ih] at hpiece ⊢
    omega

theorem gaps (hg : IsGap g) (hw : BeginsToken w) : gaps (g ++ w) = g.length :=
  hg.runLength hw (measuresTrivia_gapLength false)

theorem gapsBeforeAttributes (hg : IsGap g) (hw : BeginsToken w) :
    gapsBeforeAttributes (g ++ w) = g.length := hg.runLength hw (measuresTrivia_gapLength true)

theorem trivia (hg : IsGap g) (hw : BeginsToken w) (attributes : Bool) :
    trivia attributes (g ++ w) = g.length := hg.runLength hw fun _ _ => rfl

/-- There are no stretches outside the tags in a gap. -/
theorem run_interpolations (hg : IsGap g) (hw : BeginsToken w) {c : Cursor} (hr : c.rest = g ++ w)
    (attributes : Bool) : (interpolations attributes).run c = some ([], c.past g.length) := by
  have hpast : (c.past g.length).rest = w := Cursor.past_rest_append hr
  unfold interpolations
  rw [run_bind_some run_turns, interpolations.go, run_bind_some run_remaining, hr,
    hg.trivia hw, run_bind_some (run_advance _), run_bind_some run_remaining, hpast,
    hw.interpolationLength]
  rfl

/-- No closing tag is in sight behind a gap. -/
theorem closesStatement (hg : IsGap g) (hw : BeginsToken w) : closesStatement (g ++ w) = false := by
  induction hg with
  | nil => exact hw.closesStatement
  | @space a g ha _ ih =>
    have hskip : behindSpace? false (a :: (g ++ w)) = behindSpace? false (g ++ w) := by
      rw [behindSpace?.eq_def]
      exact if_pos ha
    unfold Lexical.closesStatement at ih ⊢
    rw [List.cons_append, hskip]
    exact ih
  | comment _ _ _ =>
    unfold Lexical.closesStatement Lexical.behindSpace?
    rfl
  | @slashes t g ht _ ih =>
    have hskip : behindSpace? false (47 :: 47 :: (t ++ 10 :: (g ++ w))) = behindSpace? false (g ++ w) := by
      rw [behindSpace?.eq_def]
      exact behindSpace?_line ht
    unfold Lexical.closesStatement at ih ⊢
    rw [List.cons_append, List.cons_append, List.append_assoc, List.cons_append, hskip]
    exact ih
  | hash _ _ _ _ =>
    unfold Lexical.closesStatement Lexical.behindSpace?
    rfl

/-- A comment is passed over, and a closing tag is looked for behind it. -/
theorem gapsBeforeEnd_comment {a : UInt8} {p u : Bytes} {n : Nat} (ha : a = 47 ∨ a = 35)
    (hcloses : Lexical.closesStatement (a :: (p ++ u)) = false)
    (hlength : commentLength false (a :: (p ++ u)) = p.length + 1)
    (hrest : Lexical.gapsBeforeEnd 0 true u = (n, false)) (asks : Bool) :
    Lexical.gapsBeforeEnd 0 asks (a :: (p ++ u)) = (p.length + 1 + n, false) := by
  have hblank : blankLength (a :: (p ++ u)) = 0 := by
    rcases ha with rfl | rfl <;> exact blankLength_printed (by decide) (by decide)
  have hne : a ≠ 63 := by rcases ha with rfl | rfl <;> decide
  have hpiece : gapLength false (a :: (p ++ u)) = p.length + 1 :=
    (measuresTrivia_gapLength false _ (interpolationLength_of_ne hne)).trans
      ((triviumLength_comment ha false).trans hlength)
  have hpending := gapsBeforeEnd_pending true p u
  rw [Lexical.gapsBeforeEnd]
  simp only [hcloses, hblank, hpiece, Bool.and_false, Bool.false_eq_true, if_false, hpending, hrest]
  rw [Nat.add_right_comm]

theorem gapsBeforeEnd_space {a : UInt8} (ha : isSpace a = true) (hg : IsGap g) (hw : BeginsToken w)
    (h : ∀ asks, Lexical.gapsBeforeEnd 0 asks (g ++ w) = (g.length, false)) (asks : Bool) :
    Lexical.gapsBeforeEnd 0 asks (a :: (g ++ w)) = (g.length + 1, false) := by
  have hcloses : Lexical.closesStatement (a :: (g ++ w)) = false :=
    (IsGap.space ha hg).closesStatement hw
  have hblank : blankLength (a :: (g ++ w)) = 1 := by
    unfold blankLength
    exact if_pos (by simpa [isSpace] using ha)
  rw [Lexical.gapsBeforeEnd]
  simp [hcloses, hblank, h]

theorem gapsBeforeEnd (hg : IsGap g) (hw : BeginsToken w) (asks : Bool) :
    gapsBeforeEnd 0 asks (g ++ w) = (g.length, false) := by
  induction hg generalizing asks with
  | nil => exact hw.gapsBeforeEnd asks
  | @space a g ha hg ih =>
    exact gapsBeforeEnd_space ha hg hw ih asks
  | @comment t g ht hg ih =>
    have hcloses := (IsGap.comment ht hg).closesStatement hw
    have hrun := gapsBeforeEnd_comment (p := 42 :: (t ++ [42, 47])) (u := g ++ w) (.inl rfl)
      (by simpa using hcloses) (by simpa using commentLength_block (u := g ++ w) ht false) (ih true) asks
    simp at hrun ⊢
    rw [hrun]
    exact Prod.ext (by dsimp only; omega) rfl
  | @slashes t g ht hg ih =>
    have hcloses := (IsGap.slashes ht hg).closesStatement hw
    have hrun := gapsBeforeEnd_comment (p := 47 :: t) (u := 10 :: (g ++ w)) (.inl rfl)
      (by simpa using hcloses) (by simpa using commentLength_slashes (u := g ++ w) ht false)
      (gapsBeforeEnd_space rfl hg hw ih true) asks
    simp at hrun ⊢
    rw [hrun]
    exact Prod.ext (by dsimp only; omega) rfl
  | @hash t g ht hopen hg ih =>
    have hcloses := (IsGap.hash ht hopen hg).closesStatement hw
    have hrun := gapsBeforeEnd_comment (p := t) (u := 10 :: (g ++ w)) (.inr rfl)
      (by simpa using hcloses) (by simpa using commentLength_hash (u := g ++ w) ht hopen false)
      (gapsBeforeEnd_space rfl hg hw ih true) asks
    simp at hrun ⊢
    rw [hrun]
    exact Prod.ext (by dsimp only; omega) rfl

theorem passed (hg : IsGap g) : Passed g := fun _ hw => hg.gaps hw

theorem passedBehind (hg : IsGap g) : PassedBehind g :=
  ⟨hg.passed, fun _ hw => hg.gapsBeforeEnd hw true⟩

theorem append {k : Bytes} (hg : IsGap g) (hk : IsGap k) : IsGap (g ++ k) := by
  induction hg with
  | nil => exact hk
  | space ha _ ih => exact .space ha ih
  | comment ht _ ih =>
    rw [List.cons_append, List.cons_append, List.append_assoc]
    exact .comment ht ih
  | slashes ht _ ih =>
    rw [List.cons_append, List.cons_append, List.append_assoc]
    exact .slashes ht ih
  | hash ht hopen _ ih =>
    rw [List.cons_append, List.append_assoc]
    exact .hash ht hopen ih

theorem head_cases {a : UInt8} (hg : IsGap (a :: g)) : isSpace a = true ∨ a = 47 ∨ a = 35 := by
  cases hg with
  | space ha _ => exact .inl ha
  | comment _ _ => exact .inr (.inl rfl)
  | slashes _ _ => exact .inr (.inl rfl)
  | hash _ _ _ => exact .inr (.inr rfl)

theorem boundary {u : Bytes} (hg : IsGap g) (hu : Boundary u) : Boundary (g ++ u) := by
  cases g with
  | nil => exact hu
  | cons a g =>
    refine boundary_cons ?_
    rcases hg.head_cases with ha | rfl | rfl
    · exact isLabelByte_space ha
    · rfl
    · rfl

theorem head?_ne_point {u : Bytes} (hg : IsGap g) (hu : u.head? ≠ some 46) :
    (g ++ u).head? ≠ some 46 := by
  cases g with
  | nil => exact hu
  | cons a g =>
    intro heq
    obtain rfl : a = 46 := by simpa using heq
    rcases hg.head_cases with ha | ha | ha <;> cases ha

end IsGap

/-- Behind a gap comes a token, or the end of the source. -/
structure Next (u w : Bytes) : Prop where
  token : BeginsToken w
  behind : ∃ g, IsGap g ∧ u = g ++ w

theorem next_append {g w : Bytes} (hg : IsGap g) (hw : BeginsToken w) : Next (g ++ w) w :=
  ⟨hw, g, hg, rfl⟩

theorem next_token {w : Bytes} (hw : BeginsToken w) : Next w w := next_append .nil hw

namespace Next

variable {u w : Bytes} {c : Cursor}

theorem drop_gaps (h : Next u w) : u.drop (gaps u) = w := by
  obtain ⟨g, hg, rfl⟩ := h.behind
  rw [hg.gaps h.token, List.drop_left]

theorem drop_gapsBeforeAttributes (h : Next u w) : u.drop (gapsBeforeAttributes u) = w := by
  obtain ⟨g, hg, rfl⟩ := h.behind
  rw [hg.gapsBeforeAttributes h.token, List.drop_left]

theorem run_ahead (h : Next c.rest w) : ahead.run c = some (w, c) := by
  rw [Reader.run_ahead, h.drop_gaps]

theorem run_openAhead (h : Next c.rest w) : openAhead.run c = some (w, c) := by
  rw [Reader.run_openAhead, h.drop_gapsBeforeAttributes]

theorem run_nextIs (h : Next c.rest w) (text : String) :
    (nextIs text).run c = some (beginsWith text w, c) := by
  rw [Reader.run_nextIs, h.drop_gaps]

theorem run_nextWord (h : Next c.rest w) : nextWord.run c = some (wordAt w, c) := by
  rw [Reader.run_nextWord, h.drop_gaps]

/-- What stands behind an operand, also where a closing tag would end the statement. -/
theorem run_behindOperand (h : Next c.rest w) : behindOperand.run c = some (w, c) := by
  obtain ⟨g, hg, hr⟩ := h.behind
  exact run_behindOperand_passed hr hg.passedBehind h.token

theorem run_thenIs (h : Next c.rest w) (text : String) :
    (thenIs text).run c = some (beginsWith text w, c) := by
  unfold thenIs
  rw [run_bind_some h.run_behindOperand]
  rfl

theorem endsPath {tagEnds : Bool} (h : Next u w) (hu : Boundary u)
    (hw : beginsWith "\\" w = false) : EndsPath tagEnds u := by
  refine ⟨hu, fun c _ hr => ?_⟩
  rw [run_thenIs (w := w) (by rw [hr]; exact h), hw]

end Next

/-! ## Reading a text -/

/-- A cursor at its place in a source, outside heredocs, where a closing tag ends the statement or
does not. -/
structure Cursor.Stands (c : Cursor) (source : Bytes) (tagEnds : Bool) : Prop
    extends c.In source where
  mode : c.tagEnds = tagEnds
  outside : c.inHeredoc = false

theorem Cursor.Stands.past {c : Cursor} {source : Bytes} {b : Bool} (h : c.Stands source b)
    (n : Nat) : (c.past n).Stands source b :=
  ⟨h.toIn.past n, h.mode, h.outside⟩

/-- The reader takes exactly the text, wherever it stands in front of what `ok` admits, and gives a
value of which `post` holds. -/
def Reads {α : Type} (source : Bytes) (tagEnds : Bool) (r : Reader α) (t : Bytes)
    (ok : Bytes → Prop) (post : α → Prop) : Prop :=
  ∀ ⦃c : Cursor⦄ ⦃u : Bytes⦄, c.Stands source tagEnds → c.rest = t ++ u → ok u →
    ∃ a, r.run c = some (a, c.past t.length) ∧ post a

/-- The reader finds nothing in front of what stands here. -/
def Stops {α : Type} (source : Bytes) (tagEnds : Bool) (r : Reader α) (u : Bytes) : Prop :=
  ∀ ⦃c : Cursor⦄, c.Stands source tagEnds → c.rest = u → r.run c = none

/-- Anything may follow. -/
def anyRest : Bytes → Prop := fun _ => True

/-- The reader cannot get through the text, whatever of what `ok` admits follows it. -/
def Breaks {α : Type} (source : Bytes) (tagEnds : Bool) (r : Reader α) (t : Bytes)
    (ok : Bytes → Prop) : Prop :=
  ∀ u, ok u → Stops source tagEnds r (t ++ u)

/-- The reader takes the text if `good` holds, and cannot get through it otherwise. -/
structure Decides {α : Type} (source : Bytes) (tagEnds : Bool) (r : Reader α) (t : Bytes)
    (ok : Bytes → Prop) (post : α → Prop) (good : Prop) : Prop where
  reads : good → Reads source tagEnds r t ok post
  breaks : ¬ good → Breaks source tagEnds r t ok

section
variable {α β : Type} {source : Bytes} {b : Bool} {r : Reader α} {t t' : Bytes}
  {ok ok' : Bytes → Prop} {post post' : α → Prop}

theorem Reads.mono (h : Reads source b r t ok post) (hok : ∀ u, ok' u → ok u)
    (hpost : ∀ a, post a → post' a) : Reads source b r t ok' post' := by
  intro c u hc hr hu
  obtain ⟨a, hrun, ha⟩ := h hc hr (hok u hu)
  exact ⟨a, hrun, hpost a ha⟩

theorem Reads.bind {f : α → Reader β} {q : β → Prop} (h : Reads source b r t ok post)
    (hf : ∀ a, post a → Reads source b (f a) t' ok' q) (hok : ∀ u, ok' u → ok (t' ++ u)) :
    Reads source b (r >>= f) (t ++ t') ok' q := by
  intro c u hc hr hu
  have hr' : c.rest = t ++ (t' ++ u) := by rw [hr, List.append_assoc]
  obtain ⟨a, hrun, ha⟩ := h hc hr' (hok u hu)
  obtain ⟨y, hrun', hy⟩ := hf a ha (hc.past _) (Cursor.past_rest_append hr') hu
  refine ⟨y, ?_, hy⟩
  rw [run_bind_some hrun, hrun', Cursor.past_past, List.length_append]

/-- A reader that takes nothing more behind another. -/
theorem Reads.finish {f : α → Reader β} {q : β → Prop} (h : Reads source b r t ok post)
    (hf : ∀ a, post a → Reads source b (f a) [] ok q) : Reads source b (r >>= f) t ok q := by
  have hall := h.bind hf fun _ hu => hu
  rwa [List.append_nil] at hall

/-- A look ahead does not move, and shows something of what follows. -/
theorem Reads.peek {f : α → Reader β} {p : α → Prop} {q : β → Prop}
    (h : ∀ ⦃c : Cursor⦄ ⦃u : Bytes⦄, c.rest = t ++ u → ok u → ∃ a, r.run c = some (a, c) ∧ p a)
    (hf : ∀ a, p a → Reads source b (f a) t ok q) : Reads source b (r >>= f) t ok q := by
  intro c u hc hr hu
  obtain ⟨a, ha, hp⟩ := h hr hu
  rw [run_bind_some ha]
  exact hf a hp hc hr hu

/-- A look ahead whose answer is known. -/
theorem Reads.look {f : α → Reader β} {a : α} {q : β → Prop}
    (h : ∀ ⦃c : Cursor⦄ ⦃u : Bytes⦄, c.rest = t ++ u → ok u → r.run c = some (a, c))
    (hf : Reads source b (f a) t ok q) : Reads source b (r >>= f) t ok q :=
  Reads.peek (p := (· = a)) (fun _ _ hr hu => ⟨a, h hr hu, rfl⟩) fun _ ha => ha ▸ hf

theorem reads_pure {a : α} (h : post a) : Reads source b (pure a) [] ok post :=
  fun _ _ _ _ _ => ⟨a, rfl, h⟩

theorem Reads.map {f : α → β} {q : β → Prop} (h : Reads source b r t ok post)
    (hf : ∀ a, post a → q (f a)) : Reads source b (f <$> r) t ok q := by
  intro c u hc hr hu
  obtain ⟨a, hrun, ha⟩ := h hc hr hu
  exact ⟨f a, by rw [run_map, hrun]; rfl, hf a ha⟩

/-- What a reader gives is turned into something else. -/
theorem Reads.yields {f : α → β} {q : β → Prop} (h : Reads source b r t ok post)
    (hf : ∀ a, post a → q (f a)) : Reads source b (r >>= fun a => pure (f a)) t ok q := by
  intro c u hc hr hu
  obtain ⟨a, hrun, ha⟩ := h hc hr hu
  exact ⟨f a, by rw [run_bind_some hrun]; rfl, hf a ha⟩

theorem Reads.withTagEnds {m : Bool} (h : Reads source m r t ok post) :
    Reads source b (withTagEnds m r) t ok post := by
  intro c u hc hr hu
  obtain ⟨a, hrun, ha⟩ := h (c := { c with tagEnds := m }) ⟨⟨hc.rest, hc.size⟩, rfl, hc.outside⟩ hr hu
  exact ⟨a, run_withTagEnds hrun, ha⟩

theorem Stops.withTagEnds {m : Bool} {u : Bytes} (h : Stops source m r u) :
    Stops source b (withTagEnds m r) u := by
  intro c hc hr
  unfold Reader.withTagEnds
  rw [run_bind_some run_get, run_bind_some (run_modify _)]
  exact run_bind_none (h (c := { c with tagEnds := m }) ⟨⟨hc.rest, hc.size⟩, rfl, hc.outside⟩ hr)

theorem Reads.inner (h : Reads source false r t ok post) : Reads source b (inner r) t ok post :=
  h.withTagEnds

theorem Reads.last (h : Reads source true r t ok post) : Reads source b (last r) t ok post :=
  h.withTagEnds

theorem Reads.orElse {r' : Reader α} (h : Reads source b r t ok post) :
    Reads source b (r <|> r') t ok post := by
  intro c u hc hr hu
  obtain ⟨a, hrun, ha⟩ := h hc hr hu
  exact ⟨a, by rw [run_orElse, hrun]; rfl, ha⟩

/-- The second of two readers, where the first finds nothing. -/
theorem Reads.elseOr {r' : Reader α} (hstop : ∀ u, ok u → Stops source b r' (t ++ u))
    (h : Reads source b r t ok post) : Reads source b (r' <|> r) t ok post := by
  intro c u hc hr hu
  obtain ⟨a, hrun, ha⟩ := h hc hr hu
  exact ⟨a, by rw [run_orElse, hstop u hu hc hr, hrun]; rfl, ha⟩

theorem reads_maybe_none (h : ∀ u, ok u → Stops source b r u) :
    Reads source b (maybe r) [] ok (· = none) :=
  fun _ _ hc hr hu => ⟨none, run_maybe_none (h _ hu hc hr), rfl⟩

theorem reads_maybeNode_none {r : Reader Node} (h : ∀ u, ok u → Stops source b r u) :
    Reads source b (maybeNode r) [] ok (· = []) :=
  fun _ _ hc hr hu => ⟨[], run_maybeNode_none (h _ hu hc hr), rfl⟩

theorem Reads.maybeNode {r : Reader Node} {post : Node → Prop} (h : Reads source b r t ok post) :
    Reads source b (maybeNode r) t ok fun ns => ∃ n, ns = [n] ∧ post n := by
  intro c u hc hr hu
  obtain ⟨n, hrun, hn⟩ := h hc hr hu
  exact ⟨[n], run_maybeNode_some hrun, n, rfl, hn⟩

/-- A reader that takes nothing, whatever it gives. -/
theorem Reads.skip {f : α → Reader β} {q : β → Prop} (h : ∀ c : Cursor, ∃ a, r.run c = some (a, c))
    (hf : ∀ a, Reads source b (f a) t ok q) : Reads source b (r >>= f) t ok q :=
  Reads.peek (p := fun _ => True) (fun c _ _ _ => (h c).imp fun _ ha => ⟨ha, trivial⟩)
    fun a _ => hf a

theorem Stops.bind {f : α → Reader β} {u : Bytes} (h : Stops source b r u) :
    Stops source b (r >>= f) u := fun _ hc hr => run_bind_none (h hc hr)

/-- What follows a text cannot be read. -/
theorem Reads.stops {f : α → Reader β} {u : Bytes} (h : Reads source b r t ok post) (hu : ok u)
    (hf : ∀ a, post a → Stops source b (f a) u) : Stops source b (r >>= f) (t ++ u) := by
  intro c hc hr
  obtain ⟨a, hrun, ha⟩ := h hc hr hu
  rw [run_bind_some hrun]
  exact hf a ha (hc.past t.length) (Cursor.past_rest_append hr)

/-- What follows a look ahead cannot be read. -/
theorem Stops.peek {f : α → Reader β} {p : α → Prop} {u : Bytes}
    (h : ∀ ⦃c : Cursor⦄, c.Stands source b → c.rest = u → ∃ a, r.run c = some (a, c) ∧ p a)
    (hf : ∀ a, p a → Stops source b (f a) u) : Stops source b (r >>= f) u := by
  intro c hc hr
  obtain ⟨a, ha, hp⟩ := h hc hr
  rw [run_bind_some ha]
  exact hf a hp hc hr

theorem Stops.look {f : α → Reader β} {a : α} {u : Bytes}
    (h : ∀ ⦃c : Cursor⦄, c.Stands source b → c.rest = u → r.run c = some (a, c))
    (hf : Stops source b (f a) u) : Stops source b (r >>= f) u :=
  Stops.peek (p := (· = a)) (fun _ hc hr => ⟨a, h hc hr, rfl⟩) fun _ ha => ha ▸ hf

/-- Behind a reader of nodes that finds none. -/
theorem Stops.behindNone {r : Reader Node} {f : List Node → Reader β} {u : Bytes}
    (h : Stops source b r u) (hf : Stops source b (f []) u) :
    Stops source b (Reader.maybeNode r >>= f) u :=
  Stops.look (fun _ hc hr => run_maybeNode_none (h hc hr)) hf

theorem Stops.position {f : Nat → Reader β} {u : Bytes} (hf : ∀ n, Stops source b (f n) u) :
    Stops source b (position >>= f) u :=
  Stops.peek (p := fun _ => True) (fun c _ _ => ⟨c.offset, run_position, trivial⟩) fun n _ => hf n

theorem Reads.position {f : Nat → Reader β} {q : β → Prop} (hf : ∀ n, Reads source b (f n) t ok q) :
    Reads source b (position >>= f) t ok q :=
  Reads.skip (fun c => ⟨c.offset, run_position⟩) hf

/-! ### Texts that decide -/

section
variable {good : Prop}

theorem Decides.mono (h : Decides source b r t ok post good) (hok : ∀ u, ok' u → ok u)
    (hpost : ∀ a, post a → post' a) : Decides source b r t ok' post' good :=
  ⟨fun hgood => (h.reads hgood).mono hok hpost, fun hbad u hu => h.breaks hbad u (hok u hu)⟩

theorem Decides.congr {good' : Prop} (h : Decides source b r t ok post good) (hg : good ↔ good') :
    Decides source b r t ok post good' :=
  ⟨fun hgood => h.reads (hg.2 hgood), fun hbad => h.breaks fun hgood => hbad (hg.1 hgood)⟩

theorem Reads.decides (h : Reads source b r t ok post) (hgood : good) :
    Decides source b r t ok post good :=
  ⟨fun _ => h, fun hbad => absurd hgood hbad⟩

/-- What follows a text that is read decides. -/
theorem Reads.thenDecides {f : α → Reader β} {q : β → Prop} (h : Reads source b r t ok post)
    (hf : ∀ a, post a → Decides source b (f a) t' ok' q good) (hok : ∀ u, ok' u → ok (t' ++ u)) :
    Decides source b (r >>= f) (t ++ t') ok' q good := by
  refine ⟨fun hgood => h.bind (fun a ha => (hf a ha).reads hgood) hok, fun hbad u hu => ?_⟩
  rw [List.append_assoc]
  exact h.stops (hok u hu) fun a ha => (hf a ha).breaks hbad u hu

/-- Two texts that decide one behind the other are read if both are good. -/
theorem Decides.bind {good' : Prop} {f : α → Reader β} {q : β → Prop}
    (h : Decides source b r t ok post good)
    (hf : ∀ a, post a → Decides source b (f a) t' ok' q good')
    (hok : ∀ u, ok' u → ok (t' ++ u)) :
    Decides source b (r >>= f) (t ++ t') ok' q (good ∧ good') := by
  refine ⟨fun hgood => (h.reads hgood.1).bind (fun a ha => (hf a ha).reads hgood.2) hok,
    fun hbad u hu => ?_⟩
  rw [List.append_assoc]
  by_cases hgood : good
  · exact (h.reads hgood).stops (hok u hu) fun a ha => (hf a ha).breaks (fun h' => hbad ⟨hgood, h'⟩) u hu
  · exact (h.breaks hgood _ (hok u hu)).bind

theorem Decides.finish {f : α → Reader β} {q : β → Prop} (h : Decides source b r t ok post good)
    (hf : ∀ a, post a → Reads source b (f a) [] ok q) : Decides source b (r >>= f) t ok q good :=
  ⟨fun hgood => (h.reads hgood).finish hf, fun hbad u hu => (h.breaks hbad u hu).bind⟩

theorem Decides.yields {f : α → β} {q : β → Prop} (h : Decides source b r t ok post good)
    (hf : ∀ a, post a → q (f a)) : Decides source b (r >>= fun a => pure (f a)) t ok q good :=
  ⟨fun hgood => (h.reads hgood).yields hf, fun hbad u hu => (h.breaks hbad u hu).bind⟩

theorem Decides.peek {f : α → Reader β} {p : α → Prop} {q : β → Prop}
    (h : ∀ ⦃c : Cursor⦄ ⦃u : Bytes⦄, c.rest = t ++ u → ok u → ∃ a, r.run c = some (a, c) ∧ p a)
    (hf : ∀ a, p a → Decides source b (f a) t ok q good) :
    Decides source b (r >>= f) t ok q good :=
  ⟨fun hgood => Reads.peek h fun a ha => (hf a ha).reads hgood,
    fun hbad u hu => Stops.peek (fun _ _ hr => h hr hu) fun a ha => (hf a ha).breaks hbad u hu⟩

theorem Decides.look {f : α → Reader β} {a : α} {q : β → Prop}
    (h : ∀ ⦃c : Cursor⦄ ⦃u : Bytes⦄, c.rest = t ++ u → ok u → r.run c = some (a, c))
    (hf : Decides source b (f a) t ok q good) : Decides source b (r >>= f) t ok q good :=
  Decides.peek (p := (· = a)) (fun _ _ hr hu => ⟨a, h hr hu, rfl⟩) fun _ ha => ha ▸ hf

theorem Decides.skip {f : α → Reader β} {q : β → Prop} (h : ∀ c : Cursor, ∃ a, r.run c = some (a, c))
    (hf : ∀ a, Decides source b (f a) t ok q good) : Decides source b (r >>= f) t ok q good :=
  Decides.peek (p := fun _ => True) (fun c _ _ _ => (h c).imp fun _ ha => ⟨ha, trivial⟩)
    fun a _ => hf a

theorem Decides.position {f : Nat → Reader β} {q : β → Prop}
    (hf : ∀ n, Decides source b (f n) t ok q good) :
    Decides source b (position >>= f) t ok q good :=
  Decides.skip (fun c => ⟨c.offset, run_position⟩) hf

/-- A second reader that cannot get through the text either changes nothing. -/
theorem Decides.orElse {r' : Reader α} (h : Decides source b r t ok post good)
    (h' : Breaks source b r' t ok) : Decides source b (r <|> r') t ok post good := by
  refine ⟨fun hgood => (h.reads hgood).orElse, fun hbad u hu c hc hr => ?_⟩
  rw [run_orElse, h.breaks hbad u hu hc hr, h' u hu hc hr]
  rfl

theorem Decides.withTagEnds {m : Bool} (h : Decides source m r t ok post good) :
    Decides source b (withTagEnds m r) t ok post good :=
  ⟨fun hgood => (h.reads hgood).withTagEnds, fun hbad u hu => (h.breaks hbad u hu).withTagEnds⟩

end

end

/-! ## Tokens and nodes -/

/-- A node without children over some bytes. -/
structure Node.IsLeaf (n : Node) (source : Bytes) (kind : Kind) (s : Bytes) : Prop where
  kind : n.kind = kind
  children : n.children = []
  bytes : n.bytes source = s

section
variable {α β : Type} {source : Bytes} {b : Bool} {g s t : Bytes} {ok : Bytes → Prop}

theorem reads_gap (hg : IsGap g) : Reads source b gap g BeginsToken fun _ => True := by
  intro c u _ hr hu
  refine ⟨(), ?_, trivial⟩
  rw [run_gap, hr, hg.gaps hu]

theorem reads_openGap (hg : IsGap g) : Reads source b openGap g BeginsToken fun _ => True := by
  intro c u _ hr hu
  refine ⟨(), ?_, trivial⟩
  rw [run_openGap, hr, hg.gapsBeforeAttributes hu]

theorem reads_symbol {text : String} (hg : IsGap g) (hl : text.length = s.length)
    (hb : ∀ u, beginsWith text (s ++ u) = true) (ht : ∀ u, ok u → BeginsToken (s ++ u)) :
    Reads source b (symbol text) (g ++ s) ok fun _ => True := by
  intro c u _ hr hu
  have hr' : c.rest = g ++ (s ++ u) := by rw [hr, List.append_assoc]
  have hgap : gaps c.rest = g.length := by rw [hr', hg.gaps (ht u hu)]
  refine ⟨(), ?_, trivial⟩
  rw [run_symbol hgap (by rw [hr', List.drop_left]; exact hb u), hl, List.length_append]

/-- A sign of one byte. -/
theorem reads_sign {text : String} {a : UInt8} (hg : IsGap g) (ha : isSolid a = true)
    (ht : text.toList = [Char.ofNat a.toNat]) :
    Reads source b (symbol text) (g ++ [a]) anyRest fun _ => True := by
  have hl : text.length = 1 := by rw [← String.length_toList, ht]; rfl
  refine reads_symbol hg hl (fun u => ?_) fun u _ => beginsToken_solid ha
  have hbyte : ∀ n : Fin 127, ascii (Char.ofNat n) = UInt8.ofNat n := by decide
  have hlt : a.toNat < 127 := by
    have := (isSolid_iff.1 ha).2.1
    rwa [UInt8.lt_iff_toNat_lt] at this
  have hascii : ascii (Char.ofNat a.toNat) = a := by
    simpa using hbyte ⟨a.toNat, hlt⟩
  simp [beginsWith, ht, beginsWith.go, hascii]

theorem beginsToken_isName (hs : IsName s) {u : Bytes} (hu : Boundary u) : BeginsToken (s ++ u) := by
  refine beginsToken_name ?_
  rw [nameLength_append hs hu]
  simpa using hs.1

theorem reads_keyword {word : String} (hg : IsGap g) (hs : IsName s)
    (hw : String.ofList (folded s) = word) :
    Reads source b (keyword word) (g ++ s) Boundary fun _ => True := by
  intro c u _ hr hu
  have hr' : c.rest = g ++ (s ++ u) := by rw [hr, List.append_assoc]
  have hgap : gaps c.rest = g.length := by rw [hr', hg.gaps (beginsToken_isName hs hu)]
  have hdrop : c.rest.drop g.length = s ++ u := by rw [hr', List.drop_left]
  refine ⟨(), ?_, trivial⟩
  rw [run_keyword hgap (by rw [hdrop, wordAt_append hs hu, hw]), hdrop, nameLength_append hs hu,
    List.length_append]

/-- A node from the first token of a text on. -/
theorem reads_nodeOf {kind : Kind} {r : Reader (List Node)} {post : List Node → Prop} (hg : IsGap g)
    (h : Reads source b r t ok post) (ht : ∀ u, ok u → BeginsToken (t ++ u)) :
    Reads source b (nodeOf kind r) (g ++ t) ok
      fun n => n.kind = kind ∧ n.bytes source = t ∧ post n.children := by
  intro c u hc hr hu
  have hr' : c.rest = g ++ (t ++ u) := by rw [hr, List.append_assoc]
  have hgap : gaps c.rest = g.length := by rw [hr', hg.gaps (ht u hu)]
  obtain ⟨cs, hrun, hcs⟩ := h (hc.past g.length) (Cursor.past_rest_append hr') hu
  rw [Cursor.past_past] at hrun
  refine ⟨.mk kind (c.offset + g.length) (c.offset + (g.length + t.length)) cs,
    (run_nodeOf hgap hrun).trans (by rw [List.length_append]; rfl), rfl, ?_, hcs⟩
  have hbytes := hc.toIn.bytes kind g.length t.length cs
  rw [hr', List.drop_left, List.take_left] at hbytes
  exact hbytes

theorem stops_nodeOf {kind : Kind} {r : Reader (List Node)} {u w : Bytes} (hu : Next u w)
    (h : Stops source b r w) : Stops source b (nodeOf kind r) u := by
  intro c hc hr
  obtain ⟨k, hk, hkw⟩ := hu.behind
  have hgap : gaps c.rest = k.length := by rw [hr, hkw, hk.gaps hu.token]
  refine run_nodeOf_none hgap (h (hc.past k.length) ?_)
  rw [Cursor.past_rest, hr, hkw, List.drop_left]

theorem stops_openGap {f : Unit → Reader α} {u w : Bytes} (hu : Next u w)
    (h : Stops source b (f ()) w) : Stops source b (openGap >>= f) u := by
  obtain ⟨k, hk, rfl⟩ := hu.behind
  exact (reads_openGap hk).stops hu.token fun _ _ => h

theorem stops_symbol {text : String} {u w : Bytes} (hu : Next u w)
    (hw : beginsWith text w = false) : Stops source b (symbol text) u := by
  intro c _ hr
  have hnext : Next c.rest w := by rw [hr]; exact hu
  exact run_symbol_none (by rw [hnext.drop_gaps]; exact hw)

theorem reads_leaf {kind : Kind} {token : Reader Unit} (hg : IsGap g)
    (h : Reads source b token t ok fun _ => True) (ht : ∀ u, ok u → BeginsToken (t ++ u)) :
    Reads source b (leaf kind token) (g ++ t) ok fun n => n.IsLeaf source kind t := by
  have hchildren : Reads source b (do token; return ([] : List Node)) t ok (· = []) :=
    h.yields fun _ _ => rfl
  exact (reads_nodeOf hg hchildren ht).mono (fun _ hu => hu) fun n hn => ⟨hn.1, hn.2.2, hn.2.1⟩

theorem reads_identifier (hg : IsGap g) (hs : IsName s) :
    Reads source b identifier (g ++ s) Boundary fun n => n.IsLeaf source .name s := by
  intro c u hc hr hu
  have hr' : c.rest = g ++ (s ++ u) := by rw [hr, List.append_assoc]
  have hgap : gaps c.rest = g.length := by rw [hr', hg.gaps (beginsToken_isName hs hu)]
  have hname : nameLength (c.rest.drop g.length) = s.length := by
    rw [hr', List.drop_left, nameLength_append hs hu]
  have hbytes := hc.toIn.bytes .name g.length s.length []
  rw [hr', List.drop_left, List.take_left, ← Nat.add_assoc] at hbytes
  exact ⟨_, (run_identifier hgap hname (by simpa using hs.1)).trans (by rw [List.length_append]),
    rfl, rfl, hbytes⟩

theorem reads_nodeFrom (kind : Kind) (start : Nat) (children : List Node) :
    Reads source b (nodeFrom kind start children) [] ok
      fun n => n.kind = kind ∧ n.children = children :=
  fun _ _ _ _ _ => ⟨_, run_nodeFrom kind start children, rfl, rfl⟩

/-- A node whose children decide. -/
theorem decides_nodeOf {kind : Kind} {r : Reader (List Node)} {post : List Node → Prop}
    {good : Prop} (hg : IsGap g) (h : Decides source b r t ok post good)
    (ht : ∀ u, ok u → BeginsToken (t ++ u)) :
    Decides source b (nodeOf kind r) (g ++ t) ok
      (fun n => n.kind = kind ∧ n.bytes source = t ∧ post n.children) good := by
  refine ⟨fun hgood => reads_nodeOf hg (h.reads hgood) ht, fun hbad u hu => ?_⟩
  rw [List.append_assoc]
  exact stops_nodeOf (next_append hg (ht u hu)) (h.breaks hbad u hu)

/-- Something between two signs of one byte. -/
theorem reads_between {opening closing : String} {x y : UInt8} {r : Reader α} {k : Bytes}
    {post : α → Prop} (hg : IsGap g) (hx : isSolid x = true)
    (ho : opening.toList = [Char.ofNat x.toNat]) (hk : IsGap k) (hy : isSolid y = true)
    (hc : closing.toList = [Char.ofNat y.toNat])
    (h : Reads source false r t (fun u => ∃ w, u = k ++ y :: w) post) :
    Reads source b (between opening closing r) (g ++ x :: (t ++ (k ++ [y]))) anyRest post := by
  have hbody : Reads source b (do
      let value ← inner r
      symbol closing
      return value) (t ++ (k ++ [y])) anyRest post := by
    refine h.inner.bind (fun a ha => ?_) fun u _ => ⟨u, by simp⟩
    exact (reads_sign hk hy hc).yields fun _ _ => ha
  have hopen : Reads source b (symbol opening) (g ++ [x]) anyRest fun _ => True :=
    reads_sign hg hx ho
  simpa [between] using hopen.bind (fun _ _ => hbody) fun _ _ => trivial

end

end FacadeStubs.Php
