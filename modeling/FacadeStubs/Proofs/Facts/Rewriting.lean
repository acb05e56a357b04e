import FacadeStubs.Proofs.Facts.ClassWords
import FacadeStubs.Proofs.Text.Utf8

/-!
# Stretches of a rewritten expression

The text of an expression with absolute class names is cut from the source at the places of the class
references. The references are collected on a walk over the tree, a name at the head of a node before the
nodes beside it, so it has to be shown that the places come out in the order of the source: only then is
every cut a stretch of source.

Trees hold no nodes for comments: where one stands at the head of a node, the first child is what stands
behind it, and so no reference has to be told from a comment here.

`Placed lo hi rs` says that replacements stand one behind the other between two positions, and `stretches`
lists what an expression is made of: stretches that are kept, with the replaced ones between them.

Results:
* `Node.IsOrderly.placed`: the references of an orderly node are placed inside it.
* `Placed.kept`: no stretch that is kept ends before it starts.
* `bytes_stretches`: the stretches are the whole stretch of source, each byte once.
* `replaced_eq_stretches`: the text is that of the stretches.
* `absoluteSource_stretches`: all of this of every orderly node in every scope.
-/
namespace FacadeStubs.Php

/-! ## Replacements in order -/

/-- Replacements stand one behind the other between two positions. -/
def Placed (lo hi : Nat) : List Replacement → Prop
  | [] => lo ≤ hi
  | r :: rest => lo ≤ r.start ∧ r.start ≤ r.stop ∧ Placed r.stop hi rest

namespace Placed

variable {lo hi : Nat} {rs : List Replacement}

theorem le (h : Placed lo hi rs) : lo ≤ hi := by
  induction rs generalizing lo with
  | nil => exact h
  | cons r rest ih =>
    obtain ⟨hstart, hr, hrest⟩ := h
    exact Nat.le_trans hstart (Nat.le_trans hr (ih hrest))

theorem within (h : Placed lo hi rs) : ∀ r ∈ rs, lo ≤ r.start ∧ r.start ≤ r.stop ∧ r.stop ≤ hi := by
  induction rs generalizing lo with
  | nil =>
    intro r hr
    cases hr
  | cons r rest ih =>
    obtain ⟨hstart, hr, hrest⟩ := h
    intro q hq
    rcases List.mem_cons.1 hq with rfl | hq
    · exact ⟨hstart, hr, hrest.le⟩
    · obtain ⟨hq, hle⟩ := ih hrest q hq
      exact ⟨Nat.le_trans hstart (Nat.le_trans hr hq), hle⟩

theorem mono {lo' : Nat} (h : Placed lo hi rs) (hlo : lo' ≤ lo) : Placed lo' hi rs := by
  cases rs with
  | nil => exact Nat.le_trans hlo h
  | cons r rest => exact ⟨Nat.le_trans hlo h.1, h.2⟩

/-- No two overlap. -/
theorem disjoint (h : Placed lo hi rs) : rs.Pairwise fun r r' => r.stop ≤ r'.start := by
  induction rs generalizing lo with
  | nil => exact List.Pairwise.nil
  | cons r rest ih =>
    obtain ⟨-, -, hrest⟩ := h
    exact List.pairwise_cons.2 ⟨fun q hq => (hrest.within q hq).1, ih hrest⟩

/-- Where none is empty, each starts and stops behind the one before it. -/
theorem increasing (h : Placed lo hi rs) (hne : ∀ r ∈ rs, r.start < r.stop) :
    rs.Pairwise fun r r' => r.start < r'.start ∧ r.stop < r'.stop := by
  refine h.disjoint.imp_of_mem ?_
  intro r r' hr hr' hle
  exact ⟨Nat.lt_of_lt_of_le (hne r hr) hle, Nat.lt_of_le_of_lt hle (hne r' hr')⟩

end Placed

section
variable {source : Bytes} {scope : ClassScope} {n : Node}

/-- Replacements stand as the words do that they replace. -/
theorem placed_replacements {lo hi : Nat} {ws : List ClassWord} (h : InOrder lo hi (attachedNodes ws)) :
    Placed lo hi (replacements source scope ws) := by
  induction ws generalizing lo with
  | nil => exact inOrder_nil.1 h
  | cons w ws ih =>
    have happend : attachedNodes (w :: ws) = attachedNodes [w] ++ attachedNodes ws :=
      attachedNodes_append [w] ws
    cases hw : w.replacement? source scope with
    | none =>
      rw [replacements, List.filterMap_cons_none hw]
      exact ih (h.sublist (happend ▸ List.sublist_append_right _ _))
    | some r =>
      have hattached : w.detached = false := by
        cases hd : w.detached with
        | false => rfl
        | true =>
          rw [ClassWord.replacement?, if_pos hd] at hw
          cases hw
      have hnodes : attachedNodes [w] = [w.node] := by simp [attachedNodes, hattached]
      rw [happend, hnodes] at h
      obtain ⟨hstart, hn, hrest⟩ := inOrder_cons.1 h
      obtain ⟨hfrom, hto⟩ := w.place_of_replacement? hw
      rw [replacements, List.filterMap_cons_some hw]
      refine ⟨hfrom ▸ hstart, ?_, ih (hto ▸ hrest)⟩
      rw [hfrom, hto]
      exact hn.le

/-- The references of an orderly node are placed inside it. -/
theorem Node.IsOrderly.placed (h : n.IsOrderly) :
    Placed n.start n.stop (references source scope n) := by
  rw [references_eq_classWords]
  exact placed_replacements h.classWords

end

/-! ## Words that cover something -/

mutual

/-- A class word is a name or a relative keyword below its node. -/
theorem mem_parts_of_mem_classWords : ∀ {n : Node}, ∀ w ∈ n.classWords,
    w.node ∈ n.parts ∧ (w.node.kind.isName = true ∨ w.node.kind = .relativeScope)
  | .mk kind start stop children, w, hw => by
    by_cases hkind : kind = .relativeScope
    · subst hkind
      rw [Node.classWords] at hw
      obtain rfl := List.mem_singleton.1 hw
      rw [Node.parts]
      exact ⟨List.mem_cons_self, .inr rfl⟩
    rw [Node.classWords] at hw
    swap
    · exact hkind
    obtain ⟨hpart, hword⟩ := mem_partsIn_of_mem_classWordsIn w hw
    rw [Node.parts]
    exact ⟨List.mem_cons_of_mem _ hpart, hword⟩

theorem mem_partsIn_of_mem_classWordsIn : ∀ {ns : List Node} {heads detached : Bool},
    ∀ w ∈ classWordsIn heads detached ns,
      w.node ∈ Node.partsIn ns ∧ (w.node.kind.isName = true ∨ w.node.kind = .relativeScope)
  | [], _, _, w, hw => by cases hw
  | n :: rest, heads, detached, w, hw => by
    have hself : n ∈ n.parts := by
      cases n
      rw [Node.parts]
      exact List.mem_cons_self
    have hrest : ∀ {heads detached : Bool}, w ∈ classWordsIn heads detached rest →
        w.node ∈ Node.partsIn (n :: rest) ∧
          (w.node.kind.isName = true ∨ w.node.kind = .relativeScope) := by
      intro heads detached hw
      obtain ⟨hpart, hword⟩ := mem_partsIn_of_mem_classWordsIn w hw
      rw [Node.partsIn]
      exact ⟨List.mem_append_right _ hpart, hword⟩
    rw [Php.classWordsIn] at hw
    split at hw
    next hname =>
      rcases List.mem_cons.1 hw with rfl | hw
      · rw [Node.partsIn]
        exact ⟨List.mem_append_left _ hself, .inl (Bool.and_eq_true_iff.1 hname).2⟩
      · exact hrest hw
    next =>
      rcases List.mem_append.1 hw with hw | hw
      · rw [Node.partsIn]
        rcases List.mem_append.1 hw with hw | hw
        · split at hw
          next hname =>
            obtain rfl := List.mem_singleton.1 hw
            exact ⟨List.mem_append_left _ hself, .inl (Bool.and_eq_true_iff.1 hname).2⟩
          next => cases hw
        · obtain ⟨hpart, hword⟩ := mem_parts_of_mem_classWords w hw
          exact ⟨List.mem_append_left _ hpart, hword⟩
      · exact hrest hw

end

section
variable {source : Bytes} {scope : ClassScope} {n : Node}

theorem text_empty (h : n.stop ≤ n.start) : n.text source = "" := by
  have hbytes : n.bytes source = [] := by
    rw [Node.bytes, Nat.sub_eq_zero_of_le h, List.take_zero]
  rw [Node.text, hbytes]
  rfl

/-- A relative keyword that stands for a class is no empty stretch. -/
theorem lt_of_relative? {cls : String} (h : scope.relative? (n.text source) = some cls) :
    n.start < n.stop := by
  by_contra hle
  rw [text_empty (Nat.le_of_not_lt hle)] at h
  cases h

/-- Where names cover something, so do the references. -/
theorem lt_of_mem_references (hnames : ∀ m ∈ n.parts, m.kind.isName = true → m.start < m.stop) :
    ∀ r ∈ references source scope n, r.start < r.stop := by
  intro r hr
  rw [references_eq_classWords] at hr
  obtain ⟨w, hw, hr⟩ := List.mem_filterMap.1 hr
  obtain ⟨hfrom, hto⟩ := w.place_of_replacement? hr
  rw [hfrom, hto]
  obtain ⟨hpart, hname | hkind⟩ := mem_parts_of_mem_classWords w hw
  · exact hnames _ hpart hname
  · rw [ClassWord.replacement?] at hr
    split at hr
    · cases hr
    rw [if_pos (beq_iff_eq.2 hkind)] at hr
    obtain ⟨cls, hcls, -⟩ := Option.map_eq_some_iff.1 hr
    exact lt_of_relative? hcls

end

/-! ## Stretches -/

/-- A stretch of an expression, and the text that takes its place if there is one. -/
structure Stretch where
  start : Nat
  stop : Nat
  put? : Option String

/-- What an expression is made of from one position to another: each replacement, and in front of it what
is kept. -/
def stretches (stop : Nat) : Nat → List Replacement → List Stretch
  | start, [] => [⟨start, stop, none⟩]
  | start, r :: rest => ⟨start, r.start, none⟩ :: ⟨r.start, r.stop, some r.text⟩ :: stretches stop r.stop rest

namespace Stretch

/-- The replacement that a stretch is. -/
def replacement? (s : Stretch) : Option Replacement := s.put?.map fun text => ⟨s.start, s.stop, text⟩

/-- The bytes of a stretch in the source. -/
def bytes (source : Bytes) (s : Stretch) : Bytes := (source.drop s.start).take (s.stop - s.start)

/-- The text of a stretch: what takes its place, or its bytes, U+FFFD for those that are no text. -/
def shown (source : Bytes) (s : Stretch) : List Char :=
  match s.put? with
  | some text => text.toList
  | none => Utf8.lossy (s.bytes source)

theorem shown_kept {source : Bytes} {s : Stretch} {cs : List Char} (hs : s.put? = none)
    (hbytes : s.bytes source = Utf8.encode cs) : s.shown source = cs := by
  rw [shown, hs, hbytes]
  exact Utf8.lossy_encode cs

end Stretch

section
variable {source : Bytes} {lo hi : Nat} {rs : List Replacement}

/-- The replacements are all there, in their order. -/
theorem replacements_stretches (hi : Nat) : ∀ (lo : Nat) (rs : List Replacement),
    (stretches hi lo rs).filterMap Stretch.replacement? = rs
  | _, [] => rfl
  | _, r :: rest => by
    have hput : Stretch.replacement? ⟨r.start, r.stop, some r.text⟩ = some r := rfl
    rw [stretches, List.filterMap_cons_none rfl, List.filterMap_cons_some hput,
      replacements_stretches hi r.stop rest]

/-- No stretch ends before it starts, nor leaves the expression. -/
theorem Placed.kept (h : Placed lo hi rs) :
    ∀ s ∈ stretches hi lo rs, lo ≤ s.start ∧ s.start ≤ s.stop ∧ s.stop ≤ hi := by
  induction rs generalizing lo with
  | nil =>
    intro s hs
    obtain rfl := List.mem_singleton.1 hs
    exact ⟨Nat.le_refl _, h, Nat.le_refl _⟩
  | cons r rest ih =>
    obtain ⟨hstart, hr, hrest⟩ := h
    have hhi := hrest.le
    intro s hs
    rcases List.mem_cons.1 hs with rfl | hs
    · exact ⟨Nat.le_refl _, hstart, Nat.le_trans hr hhi⟩
    rcases List.mem_cons.1 hs with rfl | hs
    · exact ⟨hstart, hr, hhi⟩
    · obtain ⟨hfrom, hto⟩ := ih hrest s hs
      exact ⟨Nat.le_trans hstart (Nat.le_trans hr hfrom), hto⟩

/-- A stretch of source is what it is up to a position in it and what it is behind. -/
theorem take_drop_append (source : Bytes) {a b c : Nat} (hab : a ≤ b) (hbc : b ≤ c) :
    (source.drop a).take (b - a) ++ (source.drop b).take (c - b) = (source.drop a).take (c - a) := by
  have hc : c - a = (b - a) + (c - b) := by omega
  have hb : source.drop b = (source.drop a).drop (b - a) := by
    rw [List.drop_drop, Nat.add_sub_cancel' hab]
  rw [hb, hc, List.take_add]

/-- The stretches are the whole stretch of source, each byte once. -/
theorem bytes_stretches (h : Placed lo hi rs) :
    (stretches hi lo rs).flatMap (Stretch.bytes source) = (source.drop lo).take (hi - lo) := by
  induction rs generalizing lo with
  | nil => exact List.append_nil _
  | cons r rest ih =>
    obtain ⟨hstart, hr, hrest⟩ := h
    have hhi := hrest.le
    calc (stretches hi lo (r :: rest)).flatMap (Stretch.bytes source)
        = (source.drop lo).take (r.start - lo) ++ ((source.drop r.start).take (r.stop - r.start) ++
            (stretches hi r.stop rest).flatMap (Stretch.bytes source)) := rfl
      _ = (source.drop lo).take (r.start - lo) ++ (source.drop r.start).take (hi - r.start) := by
          rw [ih hrest, take_drop_append source hr hhi]
      _ = (source.drop lo).take (hi - lo) := take_drop_append source hstart (Nat.le_trans hr hhi)

/-- A text with replacements is the text of the stretches. -/
theorem replaced_eq_stretches (source : Bytes) (hi : Nat) : ∀ (lo : Nat) (rs : List Replacement),
    replaced source hi lo rs = (stretches hi lo rs).flatMap (Stretch.shown source)
  | _, [] => (List.append_nil _).symm
  | lo, r :: rest => by
    rw [replaced, replaced_eq_stretches source hi r.stop rest, List.append_assoc]
    rfl

end

/-- What the text of a node with absolute class names is made of. -/
structure Rewrites (source : Bytes) (scope : ClassScope) (n : Node) (rs : List Replacement)
    (parts : List Stretch) : Prop where
  /-- The references stand inside the node, -/
  within : ∀ r ∈ rs, n.start ≤ r.start ∧ r.start ≤ r.stop ∧ r.stop ≤ n.stop
  /-- one behind the other, -/
  disjoint : rs.Pairwise fun r r' => r.stop ≤ r'.start
  /-- and strictly so if no name is an empty stretch. -/
  increasing : (∀ m ∈ n.parts, m.kind.isName = true → m.start < m.stop) →
    (∀ r ∈ rs, r.start < r.stop) ∧ rs.Pairwise fun r r' => r.start < r'.start ∧ r.stop < r'.stop
  /-- No stretch that is cut out of the source starts behind its end. -/
  cut : ∀ s ∈ parts, n.start ≤ s.start ∧ s.start ≤ s.stop ∧ s.stop ≤ n.stop
  /-- Exactly the references are replaced. -/
  replacements : parts.filterMap Stretch.replacement? = rs
  /-- The stretches are the source of the node, byte by byte. -/
  bytes : parts.flatMap (Stretch.bytes source) = n.bytes source
  /-- The text is theirs, in the same order, before it is trimmed. -/
  text : absoluteSource source scope n =
    String.ofList (trimBlanks (parts.flatMap (Stretch.shown source)))
  /-- What is kept shows lossily, so as the text that it is if it is one. -/
  kept : ∀ s ∈ parts, s.put? = none → s.shown source = Utf8.lossy (s.bytes source) ∧
    ∀ cs, s.bytes source = Utf8.encode cs → s.shown source = cs

/-- In every node whose parts stand inside it one behind the other, and in every scope, no cut is out of
order and nothing but the references is lost. -/
theorem absoluteSource_stretches {n : Node} (hn : n.IsOrderly) (source : Bytes) (scope : ClassScope) :
    Rewrites source scope n (references source scope n)
      (stretches n.stop n.start (references source scope n)) := by
  have hplaced : Placed n.start n.stop (references source scope n) := hn.placed
  exact
    { within := hplaced.within
      disjoint := hplaced.disjoint
      increasing := by
        intro hnames
        have hlt : ∀ r ∈ references source scope n, r.start < r.stop := lt_of_mem_references hnames
        exact ⟨hlt, hplaced.increasing hlt⟩
      cut := hplaced.kept
      replacements := replacements_stretches n.stop n.start _
      bytes := bytes_stretches hplaced
      text := by rw [absoluteSource, replaced_eq_stretches]
      kept := by
        intro s _ hs
        refine ⟨?_, fun cs => Stretch.shown_kept hs⟩
        rw [Stretch.shown, hs] }

/-- A new object with a constant of its own class and a byte that is no text among the arguments. -/
def argumentSource : Bytes :=
  Utf8.bytesOf "new B(self::X, '" ++ 0xFF :: Utf8.bytesOf "')"

def argumentObject : Node :=
  .mk .objectCreation 0 19
    [.mk .name 4 5 [],
      .mk .arguments 5 19
        [.mk .classConstant 6 13 [.mk .relativeScope 6 10 [], .mk .name 12 13 []], .mk .plainString 15 18 []]]

/-- Two stretches of it are replaced, and the three around them are kept. -/
theorem absoluteSource_stretches_argument : argumentObject.IsOrderly ∧
    (∀ m ∈ argumentObject.parts, m.kind.isName = true → m.start < m.stop) ∧
    Rewrites argumentSource objectScope argumentObject
      [⟨4, 5, "\\A\\B"⟩, ⟨6, 10, "\\N\\C"⟩]
      [⟨0, 4, none⟩, ⟨4, 5, some "\\A\\B"⟩, ⟨5, 6, none⟩, ⟨6, 10, some "\\N\\C"⟩, ⟨10, 19, none⟩] ∧
    absoluteSource argumentSource objectScope argumentObject =
      "new \\A\\B(\\N\\C::X, '\uFFFD')" := by
  have horderly : argumentObject.IsOrderly := by simp [argumentObject, Node.IsOrderly, InOrder, Node.start,
    Node.stop]
  have hreferences : references argumentSource objectScope argumentObject =
      [⟨4, 5, "\\A\\B"⟩, ⟨6, 10, "\\N\\C"⟩] := by decide +kernel
  have hrewrites := absoluteSource_stretches horderly argumentSource objectScope
  rw [hreferences] at hrewrites
  exact ⟨horderly, by decide +kernel, hrewrites, by decide +kernel⟩

end FacadeStubs.Php
