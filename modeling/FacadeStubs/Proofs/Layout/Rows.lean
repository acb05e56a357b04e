import FacadeStubs.Proofs.Reader.TypeShapes
import FacadeStubs.Proofs.Text.Backslashes

/-!
# Rows of nodes

The parts of a node stand inside it, one behind the other (`Node.IsOrderly`), and what a node of its kind
is bound to have it has (`Node.Fits`): the variables and expressions in a text between double quotes stand
where the text says that something opens, a single word is a name, and the members of classes and the
parameters of functions were read by the readers of these. `Laid` says both of a row of nodes between two
positions.
-/
namespace FacadeStubs.Php

open Lexical

/-! ## Nodes in order -/

mutual

/-- The parts of a node stand inside it, one behind the other. -/
def Node.IsOrderly : Node → Prop
  | .mk _ start stop children => InOrder start stop children

/-- Orderly nodes stand one behind the other between two positions. -/
def InOrder : Nat → Nat → List Node → Prop
  | lo, hi, [] => lo ≤ hi
  | lo, hi, n :: rest => lo ≤ n.start ∧ n.IsOrderly ∧ InOrder n.stop hi rest

end

section
variable {lo mid hi lo' hi' : Nat} {n : Node} {ns ms : List Node}

mutual

theorem Node.IsOrderly.le : ∀ {n : Node}, n.IsOrderly → n.start ≤ n.stop
  | .mk _ _ _ _, h => by
    rw [Node.IsOrderly] at h
    exact InOrder.le h

theorem InOrder.le : ∀ {ns : List Node} {lo hi : Nat}, InOrder lo hi ns → lo ≤ hi
  | [], _, _, h => by rwa [InOrder] at h
  | n :: rest, lo, hi, h => by
    rw [InOrder] at h
    obtain ⟨hstart, hn, hrest⟩ := h
    exact Nat.le_trans hstart (Nat.le_trans hn.le hrest.le)

end

theorem Node.isOrderly_iff : n.IsOrderly ↔ InOrder n.start n.stop n.children := by
  cases n
  rw [IsOrderly]
  rfl

theorem inOrder_nil : InOrder lo hi [] ↔ lo ≤ hi := by rw [InOrder]

theorem inOrder_cons :
    InOrder lo hi (n :: ns) ↔ lo ≤ n.start ∧ n.IsOrderly ∧ InOrder n.stop hi ns := by
  rw [InOrder]

theorem inOrder_singleton : InOrder lo hi [n] ↔ lo ≤ n.start ∧ n.IsOrderly ∧ n.stop ≤ hi := by
  rw [inOrder_cons, inOrder_nil]

theorem InOrder.mono (h : InOrder lo hi ns) (hlo : lo' ≤ lo) (hhi : hi ≤ hi') : InOrder lo' hi' ns := by
  induction ns generalizing lo lo' with
  | nil => exact inOrder_nil.2 (Nat.le_trans hlo (Nat.le_trans (inOrder_nil.1 h) hhi))
  | cons n rest ih =>
    obtain ⟨hstart, hn, hrest⟩ := inOrder_cons.1 h
    exact inOrder_cons.2 ⟨Nat.le_trans hlo hstart, hn, ih hrest (Nat.le_refl _)⟩

theorem InOrder.append (h : InOrder lo mid ns) (h' : InOrder mid hi ms) : InOrder lo hi (ns ++ ms) := by
  induction ns generalizing lo with
  | nil => exact h'.mono (inOrder_nil.1 h) (Nat.le_refl _)
  | cons n rest ih =>
    obtain ⟨hstart, hn, hrest⟩ := inOrder_cons.1 h
    exact inOrder_cons.2 ⟨hstart, hn, ih hrest⟩

/-- Some of the nodes in order are in order. -/
theorem InOrder.sublist (h : InOrder lo hi ns) (hms : ms.Sublist ns) : InOrder lo hi ms := by
  induction hms generalizing lo with
  | slnil => exact h
  | cons n _ ih =>
    obtain ⟨hstart, hn, hrest⟩ := inOrder_cons.1 h
    exact (ih hrest).mono (Nat.le_trans hstart hn.le) (Nat.le_refl _)
  | cons_cons n _ ih =>
    obtain ⟨hstart, hn, hrest⟩ := inOrder_cons.1 h
    exact inOrder_cons.2 ⟨hstart, hn, ih hrest⟩

/-- Nodes in order end with the last one. -/
theorem InOrder.concat (h : InOrder lo hi (ns ++ [n])) : InOrder lo n.stop (ns ++ [n]) ∧ n.stop ≤ hi := by
  induction ns generalizing lo with
  | nil =>
    obtain ⟨hstart, hn, hstop⟩ := inOrder_singleton.1 h
    exact ⟨inOrder_singleton.2 ⟨hstart, hn, Nat.le_refl _⟩, hstop⟩
  | cons m rest ih =>
    obtain ⟨hstart, hm, hrest⟩ := inOrder_cons.1 h
    obtain ⟨hin, hstop⟩ := ih hrest
    exact ⟨inOrder_cons.2 ⟨hstart, hm, hin⟩, hstop⟩

theorem InOrder.isOrderly (h : InOrder lo hi ns) (hn : n ∈ ns) : n.IsOrderly :=
  (inOrder_singleton.1 (h.sublist (List.singleton_sublist.2 hn))).2.1

end

/-! ## The parts of a tree -/

namespace Node

mutual

/-- A node and all below it, in document order. -/
def parts : Node → List Node
  | .mk kind start stop children => .mk kind start stop children :: partsIn children

/-- The same of nodes that stand side by side. -/
def partsIn : List Node → List Node
  | [] => []
  | n :: rest => n.parts ++ partsIn rest

end

mutual

theorem IsOrderly.parts : ∀ {n : Node}, n.IsOrderly → ∀ m ∈ n.parts, m.IsOrderly
  | .mk kind start stop children, h, m, hm => by
    rw [Node.parts] at hm
    rcases List.mem_cons.1 hm with rfl | hm
    · exact h
    · rw [IsOrderly] at h
      exact InOrder.partsIn h m hm

theorem InOrder.partsIn : ∀ {ns : List Node} {lo hi : Nat}, InOrder lo hi ns →
    ∀ m ∈ Node.partsIn ns, m.IsOrderly
  | [], _, _, _, m, hm => by cases hm
  | n :: rest, _, _, h, m, hm => by
    obtain ⟨-, hn, hrest⟩ := inOrder_cons.1 h
    rw [Node.partsIn] at hm
    rcases List.mem_append.1 hm with hm | hm
    · exact IsOrderly.parts hn m hm
    · exact InOrder.partsIn hrest m hm

end

end Node

/-! ## What the kind of a node says -/

/-- The kinds of nodes of which more is known than the order of their parts. -/
abbrev Kind.isShaped : Kind → Bool
  | .encapsedString | .name | .declaration _ | .method => true
  | .namedType | .primitiveType | .optionalType | .unionType | .intersectionType => true
  | _ => false

/-- Where something opens in a text between double quotes: at a dollar sign a variable begins, which is the
part that begins at this place, and at a brace in front of a dollar sign an expression in braces. -/
def OpensPart (bytes : Bytes) (place : Nat) (part : Node) : Prop :=
  (∃ rest, bytes = 123 :: 36 :: rest) ∨
    ∃ b rest, bytes = 36 :: b :: rest ∧ beginsVariable (b :: rest) = true ∧ part.start = place

/-- Behind its opening quote, a text between double quotes opens a part where no backslash escapes it. -/
def Node.OpensIn (part : Node) (source : Bytes) (text : Node) : Prop :=
  ∃ mark before after : Bytes, mark ∈ [[], [98], [66]] ∧
    text.bytes source = mark ++ 34 :: (before ++ after ++ [34]) ∧ escapesNext 92 false before = false ∧
      OpensPart after (text.start + (mark.length + 1) + before.length) part

/-- A node that is no word with something below it. -/
def Node.IsWhole (n : Node) : Prop := n.kind = .name → n.children = []

theorem Node.isWhole_of_kind {n : Node} {kind : Kind} (h : n.kind = kind) (hne : kind ≠ .name) :
    n.IsWhole := fun hname => absurd (h.symm.trans hname) hne

theorem Node.isWhole_of_type {n : Node} (h : n.kind.isType = true) : n.IsWhole := by
  intro hname
  rw [hname] at h
  cases h

theorem Node.isWhole_of_shaped {n : Node} (h : n.kind.isShaped = false) : n.IsWhole := by
  intro hname
  rw [hname] at h
  cases h

/-- What is known of a node by its kind. The parts of what is declared are whole, and a type is built from
keywords and classes in every scope. -/
def Node.Fits (source : Bytes) (n : Node) : Prop :=
  match n.kind with
  | .encapsedString => ∀ m ∈ n.children, m.OpensIn source n
  | .name => n.children = [] → IsName (n.bytes source)
  | .declaration _ | .method => ∀ m ∈ n.children, m.IsWhole
  | .namedType | .primitiveType | .optionalType | .unionType | .intersectionType => n.IsBuilt source
  | _ => True

theorem Node.fits_of_not_isShaped {source : Bytes} {n : Node} (h : n.kind.isShaped = false) :
    n.Fits source := by
  unfold Fits
  cases hn : n.kind <;> rw [hn] at h <;> trivial

theorem Node.fits_encapsedString {source : Bytes} {start stop : Nat} {children : List Node}
    (h : ∀ m ∈ children, m.OpensIn source (.mk .encapsedString start stop children)) :
    (Node.mk .encapsedString start stop children).Fits source := h

theorem Node.opensIn_of_fits {source : Bytes} {n : Node} (hkind : n.kind = .encapsedString)
    (h : n.Fits source) : ∀ m ∈ n.children, m.OpensIn source n := by
  unfold Fits at h
  rwa [hkind] at h

theorem Node.isName_of_fits {source : Bytes} {n : Node} (hkind : n.kind = .name) (h : n.Fits source) :
    n.children = [] → IsName (n.bytes source) := by
  unfold Fits at h
  rwa [hkind] at h

/-- The parts of what is declared are whole. -/
theorem Node.fits_declaration {source : Bytes} {kind : ClassKind} {start stop : Nat} {children : List Node}
    (h : ∀ m ∈ children, m.IsWhole) : (Node.mk (.declaration kind) start stop children).Fits source := h

theorem Node.fits_method {source : Bytes} {start stop : Nat} {children : List Node}
    (h : ∀ m ∈ children, m.IsWhole) : (Node.mk .method start stop children).Fits source := h

theorem Node.fits_type_iff {source : Bytes} {n : Node} (h : n.kind.isType = true) :
    n.Fits source ↔ n.IsBuilt source := by
  unfold Fits
  cases hn : n.kind <;> rw [hn] at h <;> cases h

/-- Nodes that are in order between two positions, each of them and below them as its kind says. -/
structure Laid (source : Bytes) (lo hi : Nat) (ns : List Node) : Prop where
  inOrder : InOrder lo hi ns
  fits : ∀ n ∈ Node.partsIn ns, n.Fits source

/-- A condition that computing decides. -/
class IsFalse (b : Bool) : Prop where
  eq_false : b = false

instance : IsFalse false := ⟨rfl⟩

section
variable {source : Bytes} {lo mid hi lo' hi' : Nat} {n : Node} {ns ms : List Node}

theorem mem_partsIn {m : Node} : m ∈ Node.partsIn ns ↔ ∃ n ∈ ns, m ∈ n.parts := by
  induction ns with
  | nil => simp [Node.partsIn]
  | cons n ns ih => simp [Node.partsIn, ih]

namespace Laid

theorem nil (h : lo ≤ hi) : Laid source lo hi [] := ⟨inOrder_nil.2 h, fun _ hn => by cases hn⟩

theorem le (h : Laid source lo hi ns) : lo ≤ hi := h.inOrder.le

theorem each (h : Laid source lo hi ns) : ∀ n ∈ ns, n.Fits source := by
  intro n hn
  refine h.fits n (mem_partsIn.2 ⟨n, hn, ?_⟩)
  cases n
  rw [Node.parts]
  exact List.mem_cons_self

theorem mono (h : Laid source lo hi ns) (hlo : lo' ≤ lo) (hhi : hi ≤ hi') : Laid source lo' hi' ns :=
  ⟨h.inOrder.mono hlo hhi, h.fits⟩

theorem append (h : Laid source lo mid ns) (h' : Laid source mid hi ms) : Laid source lo hi (ns ++ ms) := by
  refine ⟨h.inOrder.append h'.inOrder, fun n hn => ?_⟩
  obtain ⟨m, hm, hn⟩ := mem_partsIn.1 hn
  rcases List.mem_append.1 hm with hm | hm
  · exact h.fits n (mem_partsIn.2 ⟨m, hm, hn⟩)
  · exact h'.fits n (mem_partsIn.2 ⟨m, hm, hn⟩)

theorem sublist (h : Laid source lo hi ns) (hms : ms.Sublist ns) : Laid source lo hi ms := by
  refine ⟨h.inOrder.sublist hms, fun n hn => ?_⟩
  obtain ⟨m, hm, hn⟩ := mem_partsIn.1 hn
  exact h.fits n (mem_partsIn.2 ⟨m, hms.subset hm, hn⟩)

/-- Between its own ends, a node is in order. -/
theorem narrow (h : Laid source lo hi [n]) : lo ≤ n.start ∧ Laid source n.start n.stop [n] ∧ n.stop ≤ hi := by
  obtain ⟨hstart, hn, hstop⟩ := inOrder_singleton.1 h.inOrder
  exact ⟨hstart, ⟨inOrder_singleton.2 ⟨Nat.le_refl _, hn, Nat.le_refl _⟩, h.fits⟩, hstop⟩

/-- Between the start of the first and the end of the last, nodes are in order. -/
theorem between {first last : Node} {inner : List Node} (h : Laid source lo hi (first :: (inner ++ [last]))) :
    lo ≤ first.start ∧ Laid source first.start last.stop (first :: (inner ++ [last])) ∧ last.stop ≤ hi := by
  obtain ⟨hstart, hfirst, hrest⟩ := inOrder_cons.1 h.inOrder
  obtain ⟨hin, hstop⟩ := hrest.concat
  exact ⟨hstart, ⟨inOrder_cons.2 ⟨Nat.le_refl _, hfirst, hin⟩, h.fits⟩, hstop⟩

/-- A node over nodes in order. -/
theorem node {kind : Kind} (h : Laid source lo hi ns) (hfits : (Node.mk kind lo hi ns).Fits source) :
    Laid source lo hi [.mk kind lo hi ns] := by
  refine ⟨inOrder_singleton.2 ⟨Nat.le_refl _, Node.isOrderly_iff.2 h.inOrder, Nat.le_refl _⟩, ?_⟩
  intro n hn
  obtain ⟨m, hm, hn⟩ := mem_partsIn.1 hn
  obtain rfl := List.mem_singleton.1 hm
  rw [Node.parts] at hn
  rcases List.mem_cons.1 hn with rfl | hn
  · exact hfits
  · exact h.fits n hn

/-- A node of a kind that says nothing else. -/
theorem plain {kind : Kind} [hkind : IsFalse kind.isShaped] (h : Laid source lo hi ns) :
    Laid source lo hi [.mk kind lo hi ns] :=
  h.node (Node.fits_of_not_isShaped hkind.eq_false)

end Laid

end

end FacadeStubs.Php
