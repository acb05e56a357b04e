import FacadeStubs.Proofs.Layout.Rows
import FacadeStubs.Proofs.Reader.Runs

/-!
# Reading nodes in order

Every reader keeps to the order of nodes: `Lays s ns r` says that what `r` gives is in order from the
position `s` on (`Laid`), if the nodes `ns` that were read before are. A reader that gives no nodes only has
to go onward in its source. The rules follow the combinators, and `lays_identifier` up to `lays_anyName` are
the readers of names. A node of several parts may be of any kind that says nothing else of it; for the other
kinds the rules ask for what they say (`lays_nodeFrom_fits`, `lays_nodeOf_fits`).
-/
namespace FacadeStubs.Php

open Lexical Reader

/-! ## What readers give -/

/-- Values with nodes in them. -/
class HasNodes (α : Type) where
  nodes : α → List Node

export HasNodes (nodes)

instance : HasNodes Node := ⟨fun n => [n]⟩
instance : HasNodes Operand := ⟨fun o => [o.node]⟩
instance {α : Type} [HasNodes α] : HasNodes (List α) := ⟨fun as => as.flatMap nodes⟩
instance : HasNodes (List Node × Bool) := ⟨Prod.fst⟩

@[simp] theorem nodes_node (n : Node) : nodes n = [n] := rfl

@[simp] theorem nodes_list (ns : List Node) : nodes ns = ns := by
  show ns.flatMap (fun n => [n]) = ns
  exact List.flatMap_singleton' ns

@[simp] theorem nodes_lists (nss : List (List Node)) : nodes nss = nss.flatten := by
  show nss.flatMap nodes = nss.flatten
  rw [List.flatMap_def, List.map_congr_left fun ns _ => nodes_list ns, List.map_id']

@[simp] theorem nodes_flagged (p : List Node × Bool) : nodes p = p.1 := rfl

@[simp] theorem nodes_operand (o : Operand) : nodes o = [o.node] := rfl

namespace Reader

variable {α β : Type}

/-- A reader that stays in its source and never goes back. -/
def Onward (r : Reader α) : Prop := ∀ ⦃source : Bytes⦄ ⦃c d : Cursor⦄ ⦃a : α⦄, c.In source →
  r.run c = some (a, d) → d.In source ∧ c.offset ≤ d.offset

/-- Behind nodes that are in order from a position on, a reader gives nodes that are. -/
def Lays [HasNodes α] (s : Nat) (ns : List Node) (r : Reader α) : Prop :=
  ∀ ⦃source : Bytes⦄ ⦃c d : Cursor⦄ ⦃a : α⦄, c.In source → Laid source s c.offset ns →
    r.run c = some (a, d) → d.In source ∧ Laid source s d.offset (nodes a)

/-! ## Going onward -/

section
variable {r r' : Reader α} {f : α → Reader β}

theorem onward_pure (a : α) : Onward (pure a : Reader α) := by
  intro source c d b hc hrun
  cases hrun
  exact ⟨hc, Nat.le_refl _⟩

theorem onward_failure : Onward (failure : Reader α) := by
  intro source c d a hc hrun
  cases hrun

theorem Onward.bind (h : Onward r) (hf : ∀ a, Onward (f a)) : Onward (r >>= f) := by
  intro source c d b hc hrun
  obtain ⟨a, e, hr, hrest⟩ := run_bind_eq_some hrun
  obtain ⟨he, hle⟩ := h hc hr
  obtain ⟨hd, hle'⟩ := hf a he hrest
  exact ⟨hd, Nat.le_trans hle hle'⟩

theorem Onward.map {g : α → β} (h : Onward r) : Onward (g <$> r) := by
  rw [map_eq_pure_bind]
  exact h.bind fun _ => onward_pure _

theorem Onward.orElse (h : Onward r) (h' : Onward r') : Onward (r <|> r') := by
  intro source c d a hc hrun
  rw [run_orElse] at hrun
  cases hr : r.run c with
  | none =>
    rw [hr] at hrun
    exact h' hc hrun
  | some p =>
    rw [hr] at hrun
    cases hrun
    exact h hc hr

/-- A look ahead does not move. -/
theorem onward_look (h : ∀ c : Cursor, ∃ a, r.run c = some (a, c)) : Onward r := by
  intro source c d a hc hrun
  obtain ⟨b, hb⟩ := h c
  rw [hb] at hrun
  cases hrun
  exact ⟨hc, Nat.le_refl _⟩

theorem onward_remaining : Onward remaining := onward_look fun c => ⟨c.rest, run_remaining⟩

theorem onward_position : Onward position := onward_look fun c => ⟨c.offset, run_position⟩

theorem onward_turns : Onward turns := onward_look fun c => ⟨c.size + 1, run_turns⟩

theorem onward_get : Onward (get : Reader Cursor) := onward_look fun c => ⟨c, run_get⟩

theorem onward_ahead : Onward ahead := onward_look fun _ => ⟨_, run_ahead⟩

theorem onward_openAhead : Onward openAhead := onward_look fun _ => ⟨_, run_openAhead⟩

theorem onward_behindOperand : Onward behindOperand := onward_look exists_behindOperand

theorem onward_nextIs (text : String) : Onward (nextIs text) := onward_look fun _ => ⟨_, run_nextIs text⟩

theorem onward_thenIs (text : String) : Onward (thenIs text) := onward_look (exists_thenIs text)

theorem onward_nextWord : Onward nextWord := onward_look fun _ => ⟨_, run_nextWord⟩

theorem onward_thenWord (word : String) : Onward (thenWord word) :=
  onward_behindOperand.bind fun _ => onward_pure _

theorem onward_advance (n : Nat) : Onward (advance n) := by
  intro source c d a hc hrun
  rw [run_advance] at hrun
  cases hrun
  exact ⟨hc.past n, Nat.le_add_right _ _⟩

/-- What is noted in a cursor apart from its place does not move it. -/
theorem onward_modify (g : Cursor → Cursor)
    (h : ∀ c, (g c).rest = c.rest ∧ (g c).offset = c.offset ∧ (g c).size = c.size) :
    Onward (modify g : Reader Unit) := by
  intro source c d a hc hrun
  rw [run_modify] at hrun
  cases hrun
  obtain ⟨hrest, hoffset, hsize⟩ := h c
  exact ⟨⟨by rw [hrest, hoffset, hc.rest], hsize.trans hc.size⟩, Nat.le_of_eq hoffset.symm⟩

theorem onward_setTagEnds (b : Bool) :
    Onward (modify fun c => { c with tagEnds := b } : Reader Unit) :=
  onward_modify _ fun _ => ⟨rfl, rfl, rfl⟩

theorem onward_require (b : Bool) : Onward (require b) := by
  intro source c d a hc hrun
  obtain ⟨-, rfl⟩ := of_require hrun
  exact ⟨hc, Nat.le_refl _⟩

theorem onward_gap : Onward gap := onward_remaining.bind fun _ => onward_advance _

theorem onward_openGap : Onward openGap := onward_remaining.bind fun _ => onward_advance _

theorem onward_symbol (text : String) : Onward (symbol text) :=
  onward_gap.bind fun _ => onward_remaining.bind fun _ =>
    (onward_require _).bind fun _ => onward_advance _

theorem onward_keyword (word : String) : Onward (keyword word) :=
  onward_gap.bind fun _ => onward_remaining.bind fun _ =>
    (onward_require _).bind fun _ => onward_advance _

theorem Onward.maybe (h : Onward r) : Onward (maybe r) := h.map.orElse (onward_pure _)

theorem Onward.withTagEnds {b : Bool} (h : Onward r) : Onward (withTagEnds b r) := by
  refine onward_get.bind fun c => (onward_setTagEnds b).bind fun _ => ?_
  exact h.bind fun _ => (onward_setTagEnds c.tagEnds).bind fun _ => onward_pure _

theorem Onward.inner (h : Onward r) : Onward (inner r) := h.withTagEnds

theorem Onward.last (h : Onward r) : Onward (last r) := h.withTagEnds

theorem Onward.between {opening closing : String} (h : Onward r) : Onward (between opening closing r) :=
  (onward_symbol opening).bind fun _ => h.inner.bind fun _ =>
    (onward_symbol closing).bind fun _ => onward_pure _

theorem onward_manyWithin (h : Onward r) : ∀ fuel, Onward (manyWithin r fuel)
  | 0 => onward_pure _
  | fuel + 1 => by
    refine Onward.orElse ?_ (onward_pure _)
    exact h.bind fun _ => (onward_manyWithin h fuel).bind fun _ => onward_pure _

theorem Onward.many (h : Onward r) : Onward (many r) := onward_turns.bind fun _ => onward_manyWithin h _

theorem onward_comma : Onward comma :=
  (onward_thenIs ",").bind fun _ => (onward_require _).bind fun _ => onward_symbol ","

theorem Onward.commaList1 (h : Onward r) : Onward (commaList1 r) := by
  have hentry : Onward (comma *> r) := by
    rw [seqRight_eq_bind]
    exact onward_comma.bind fun _ => h
  exact h.bind fun _ => hentry.many.bind fun _ => onward_pure _

theorem onward_semicolon : Onward semicolon := by
  unfold semicolon
  refine onward_remaining.bind fun bytes => ?_
  dsimp only
  split
  · exact onward_advance _
  · exact (onward_require _).bind fun _ => onward_advance _

end

/-! ## Giving nodes in order -/

section
variable [HasNodes α] [HasNodes β] {s : Nat} {ns : List Node} {r r' : Reader α} {f : α → Reader β}

theorem Lays.onward (h : ∀ s, Lays s [] r) : Onward r := by
  intro source c d a hc hrun
  obtain ⟨hd, hlaid⟩ := h c.offset hc (Laid.nil (Nat.le_refl _)) hrun
  exact ⟨hd, hlaid.le⟩

theorem lays_pure {a : α} (h : (nodes a).Sublist ns) : Lays s ns (pure a : Reader α) := by
  intro source c d b hc hns hrun
  cases hrun
  exact ⟨hc, hns.sublist h⟩

theorem lays_none (s : Nat) : Lays s [] (pure [] : Reader (List α)) := lays_pure (List.Sublist.refl _)

theorem lays_failure : Lays s ns (failure : Reader α) := by
  intro source c d a hc hns hrun
  cases hrun

theorem Lays.ite {p : Prop} [Decidable p] (h : Lays s ns r) (h' : Lays s ns r') :
    Lays s ns (if p then r else r') := by
  split
  · exact h
  · exact h'

/-- The nodes read before are not needed. -/
theorem Lays.alone (h : Lays s [] r) : Lays s ns r :=
  fun _ _ _ _ hc hns hrun => h hc (Laid.nil hns.le) hrun

/-- From the start of the first node on. -/
theorem Lays.fromNode {n : Node} (h : Lays n.start [n] r) : Lays s [n] r := by
  intro source c d a hc hn hrun
  obtain ⟨hstart, hin, hstop⟩ := hn.narrow
  obtain ⟨hd, hlaid⟩ := h hc (hin.mono (Nat.le_refl _) hstop) hrun
  exact ⟨hd, hlaid.mono hstart (Nat.le_refl _)⟩

theorem Lays.orElse (h : Lays s ns r) (h' : Lays s ns r') : Lays s ns (r <|> r') := by
  intro source c d a hc hns hrun
  rw [run_orElse] at hrun
  cases hr : r.run c with
  | none =>
    rw [hr] at hrun
    exact h' hc hns hrun
  | some p =>
    rw [hr] at hrun
    cases hrun
    exact h hc hns hr

/-- What a reader gives comes behind the nodes read before. -/
theorem Lays.keep (h : ∀ s, Lays s [] r) (hf : ∀ a, Lays s (ns ++ nodes a) (f a)) :
    Lays s ns (r >>= f) := by
  intro source c d b hc hns hrun
  obtain ⟨a, e, hr, hrest⟩ := run_bind_eq_some hrun
  obtain ⟨he, ha⟩ := h c.offset hc (Laid.nil (Nat.le_refl _)) hr
  exact hf a he (hns.append ha) hrest

/-- Of what a reader gives, something may be known wherever it reads. -/
theorem Lays.keepSuch {post : α → Prop} (h : ∀ s, Lays s [] r) (hpost : Finds r post)
    (hf : ∀ a, post a → Lays s (ns ++ nodes a) (f a)) : Lays s ns (r >>= f) := by
  intro source c d b hc hns hrun
  obtain ⟨a, e, hr, hrest⟩ := run_bind_eq_some hrun
  obtain ⟨he, ha⟩ := h c.offset hc (Laid.nil (Nat.le_refl _)) hr
  exact hf a (hpost hr) he (hns.append ha) hrest

/-- What a reader gives takes the place of the nodes read before. -/
theorem Lays.turn (h : Lays s ns r) (hf : ∀ a, Lays s (nodes a) (f a)) : Lays s ns (r >>= f) := by
  intro source c d b hc hns hrun
  obtain ⟨a, e, hr, hrest⟩ := run_bind_eq_some hrun
  obtain ⟨he, ha⟩ := h hc hns hr
  exact hf a he ha hrest

/-- What a reader gives may be turned into something else with the same nodes. -/
theorem Lays.yields {g : α → β} (h : Lays s ns r) (hg : ∀ a, nodes (g a) = nodes a) :
    Lays s ns (r >>= fun a => pure (g a)) :=
  h.turn fun a => lays_pure (hg a ▸ List.Sublist.refl _)

/-- What a reader may give takes the place of the nodes read before; if it gives nothing they stay. -/
theorem Lays.maybe {f : Option α → Reader β} (h : Lays s ns r) (hsome : ∀ a, Lays s (nodes a) (f (some a)))
    (hnone : Lays s ns (f none)) : Lays s ns (maybe r >>= f) := by
  intro source c d b hc hns hrun
  cases hr : r.run c with
  | none =>
    rw [run_bind_some (run_maybe_none hr)] at hrun
    exact hnone hc hns hrun
  | some p =>
    rw [run_bind_some (run_maybe_some hr)] at hrun
    obtain ⟨he, ha⟩ := h hc hns hr
    exact hsome p.1 he ha hrun

theorem Lays.map {g : α → β} (h : Lays s ns r) (hg : ∀ a, nodes (g a) = nodes a) :
    Lays s ns (g <$> r) := by
  intro source c d b hc hns hrun
  rw [run_map] at hrun
  obtain ⟨p, hp, heq⟩ := Option.map_eq_some_iff.1 hrun
  cases heq
  rw [hg]
  exact h hc hns hp

theorem lays_maybeNode {r : Reader Node} (h : ∀ s, Lays s [] r) (s : Nat) :
    Lays s [] (maybeNode r) :=
  Lays.orElse ((h s).map fun _ => rfl) (lays_none s)

end

section
variable [HasNodes β] {s : Nat} {ns : List Node} {r : Reader α} {f : α → Reader β}

/-- What is passed over does not count. -/
theorem Lays.pass (h : Onward r) (hf : ∀ a, Lays s ns (f a)) : Lays s ns (r >>= f) := by
  intro source c d b hc hns hrun
  obtain ⟨a, e, hr, hrest⟩ := run_bind_eq_some hrun
  obtain ⟨he, hle⟩ := h hc hr
  exact hf a he (hns.mono (Nat.le_refl _) hle) hrest

/-- A sign or keyword that may be passed over. -/
theorem Lays.passIf {p : Prop} [Decidable p] {r : Reader Unit} {f : Unit → Reader β} (h : Onward r)
    (hf : Lays s ns (f ())) : Lays s ns (if p then r >>= f else f ()) := by
  split
  · exact Lays.pass h fun _ => hf
  · exact hf

/-- One of two readers, by what comes next. -/
theorem Lays.keepIf [HasNodes α] {p : Prop} [Decidable p] {r' : Reader α} (h : ∀ s, Lays s [] r)
    (h' : ∀ s, Lays s [] r') (hf : ∀ a, Lays s (ns ++ nodes a) (f a)) :
    Lays s ns (if p then r >>= f else r' >>= f) := by
  split
  · exact Lays.keep h hf
  · exact Lays.keep h' hf

/-- A node may begin where nothing has been read yet. -/
theorem Lays.position {f : Nat → Reader β} (hf : ∀ start, Lays start [] (f start)) :
    Lays s [] (position >>= f) := by
  intro source c d b hc hns hrun
  rw [run_bind_some run_position] at hrun
  obtain ⟨hd, hlaid⟩ := hf c.offset hc (Laid.nil (Nat.le_refl _)) hrun
  exact ⟨hd, hlaid.mono hns.le (Nat.le_refl _)⟩

end

section
variable [HasNodes α] {s : Nat} {ns : List Node} {r : Reader α}

theorem Lays.withTagEnds {b : Bool} (h : Lays s ns r) : Lays s ns (withTagEnds b r) := by
  refine Lays.pass onward_get fun c => Lays.pass (onward_setTagEnds b) fun _ => ?_
  refine h.turn fun _ => Lays.pass (onward_setTagEnds c.tagEnds) fun _ => ?_
  exact lays_pure (List.Sublist.refl _)

theorem Lays.inner (h : Lays s ns r) : Lays s ns (inner r) := h.withTagEnds

theorem Lays.last (h : Lays s ns r) : Lays s ns (last r) := h.withTagEnds

theorem Lays.between {opening closing : String} (h : Lays s ns r) :
    Lays s ns (between opening closing r) := by
  unfold Reader.between
  refine Lays.pass (onward_symbol opening) fun _ => h.inner.turn fun _ => ?_
  exact Lays.pass (onward_symbol closing) fun _ => lays_pure (List.Sublist.refl _)

/-- A node of parts that were read from its start on. -/
theorem lays_nodeFrom_fits {kind : Kind} {children : List Node} (h : children.Sublist ns)
    (hfits : ∀ source stop, (∀ m ∈ children, m.Fits source) → (Node.mk kind s stop children).Fits source) :
    Lays s ns (nodeFrom kind s children) := by
  intro source c d n hc hns hrun
  rw [run_nodeFrom] at hrun
  cases hrun
  have hchildren := hns.sublist h
  exact ⟨hc, hchildren.node (hfits source c.offset hchildren.each)⟩

theorem lays_nodeFrom {kind : Kind} [hkind : IsFalse kind.isShaped] {children : List Node}
    (h : children.Sublist ns) : Lays s ns (nodeFrom kind s children) :=
  lays_nodeFrom_fits h fun _ _ _ => Node.fits_of_not_isShaped hkind.eq_false

/-- A node from the start of the first of its parts to the end of the last. -/
theorem Lays.enclosing {kind : Kind} [IsFalse kind.isShaped] {first last : Node} {inner : List Node}
    (h : Lays s [.mk kind first.start last.stop (first :: (inner ++ [last]))] r) :
    Lays s (first :: (inner ++ [last])) r := by
  intro source c d a hc hns hrun
  obtain ⟨hstart, hin, hstop⟩ := hns.between
  exact h hc (hin.plain.mono hstart hstop) hrun

/-- A node over the same stretch as one that was read. -/
theorem lays_over_fits {kind : Kind} {n : Node} {children : List Node} {a : α}
    (ha : nodes a = [.mk kind n.start n.stop children]) (h : children.Sublist [n])
    (hfits : ∀ source, (Node.mk kind n.start n.stop children).Fits source) :
    Lays s [n] (pure a : Reader α) := by
  intro source c d b hc hn hrun
  cases hrun
  obtain ⟨hstart, hin, hstop⟩ := hn.narrow
  rw [ha]
  exact ⟨hc, ((hin.sublist h).node (hfits source)).mono hstart hstop⟩

theorem lays_over {kind : Kind} [hkind : IsFalse kind.isShaped] {n : Node} {children : List Node} {a : α}
    (ha : nodes a = [.mk kind n.start n.stop children]) (h : children.Sublist [n]) :
    Lays s [n] (pure a : Reader α) :=
  lays_over_fits ha h fun _ => Node.fits_of_not_isShaped hkind.eq_false

/-- A node of what a reader gives from the next token on. -/
theorem lays_nodeOf_fits {kind : Kind} {r : Reader (List Node)} (h : ∀ s, Lays s [] r)
    (hfits : ∀ ⦃source c d children⦄, c.In source → r.run c = some (children, d) →
      (Node.mk kind c.offset d.offset children).Fits source) (s : Nat) : Lays s [] (nodeOf kind r) := by
  intro source c d n hc hns hrun
  unfold nodeOf at hrun
  rw [run_bind_some run_gap, run_bind_some run_position] at hrun
  obtain ⟨children, e, hr, hnode⟩ := run_bind_eq_some hrun
  rw [run_bind_some run_position] at hnode
  cases hnode
  have hin := hc.past (gaps c.rest)
  obtain ⟨hd, hlaid⟩ := h _ hin (Laid.nil (Nat.le_refl _)) hr
  rw [nodes_list] at hlaid
  have hle : s ≤ (c.past (gaps c.rest)).offset := Nat.le_trans hns.le (Nat.le_add_right _ _)
  exact ⟨hd, (hlaid.node (hfits hin hr)).mono hle (Nat.le_refl _)⟩

theorem lays_nodeOf {kind : Kind} [hkind : IsFalse kind.isShaped] {r : Reader (List Node)}
    (h : ∀ s, Lays s [] r) (s : Nat) : Lays s [] (nodeOf kind r) :=
  lays_nodeOf_fits h (fun _ _ _ _ _ _ => Node.fits_of_not_isShaped hkind.eq_false) s

theorem lays_leaf {kind : Kind} [IsFalse kind.isShaped] {token : Reader Unit} (h : Onward token) (s : Nat) :
    Lays s [] (leaf kind token) :=
  lays_nodeOf (fun _ => Lays.pass h fun _ => lays_pure (List.nil_sublist _)) s

theorem lays_manyWithin (h : ∀ s, Lays s [] r) : ∀ fuel s, Lays s [] (manyWithin r fuel)
  | 0, s => lays_pure (List.Sublist.refl _)
  | fuel + 1, s => by
    refine Lays.orElse ?_ (lays_pure (List.Sublist.refl _))
    refine Lays.keep h fun a => Lays.keep (lays_manyWithin h fuel) fun as => ?_
    exact lays_pure (List.Sublist.refl _)

theorem lays_many (h : ∀ s, Lays s [] r) (s : Nat) : Lays s [] (many r) :=
  Lays.pass onward_turns fun fuel => lays_manyWithin h fuel s

theorem lays_commaList1 (h : ∀ s, Lays s [] r) (s : Nat) : Lays s [] (commaList1 r) := by
  have hentry : ∀ s, Lays s [] (comma *> r) := fun s => by
    rw [seqRight_eq_bind]
    exact Lays.pass onward_comma fun _ => h s
  refine Lays.keep h fun a => Lays.keep (lays_many hentry) fun as => ?_
  exact lays_pure (List.Sublist.refl _)

theorem lays_openList1 (h : ∀ s, Lays s [] r) (s : Nat) : Lays s [] (openList1 r) :=
  Lays.keep (lays_commaList1 h) fun _ => Lays.pass onward_comma.maybe fun _ =>
    lays_pure (List.Sublist.refl _)

theorem lays_openList (h : ∀ s, Lays s [] r) (s : Nat) : Lays s [] (openList r) := by
  refine ((lays_commaList1 h s).orElse (lays_none s)).turn fun _ => Lays.pass onward_comma.maybe fun _ => ?_
  exact lays_pure (List.Sublist.refl _)

end

/-! ## Names -/

theorem lays_identifier (s : Nat) : Lays s [] identifier := by
  have htoken : Onward (do
      let n := nameLength (← remaining)
      require (n != 0)
      advance n) :=
    onward_remaining.bind fun _ => (onward_require _).bind fun _ => onward_advance _
  refine lays_nodeOf_fits (fun _ => Lays.pass htoken fun _ => lays_pure (List.nil_sublist _)) ?_ s
  intro source c d children hc hrun
  obtain ⟨_, e, htaken, hpure⟩ := run_bind_eq_some hrun
  cases hpure
  rw [run_bind_some run_remaining] at htaken
  obtain ⟨_, c', hname, hadvance⟩ := run_bind_eq_some htaken
  obtain ⟨hne, rfl⟩ := of_require hname
  rw [run_advance] at hadvance
  cases hadvance
  intro _
  have hbytes := hc.bytes .name 0 (nameLength c'.rest) []
  rw [List.drop_zero, Nat.zero_add, Nat.add_zero] at hbytes
  rw [Cursor.past_offset, hbytes]
  exact isName_front (by simpa using hne)

theorem onward_identifier : Onward identifier := Lays.onward lays_identifier

theorem onward_segment : Onward segment :=
  (onward_thenIs "\\").bind fun _ => (onward_require _).bind fun _ => (onward_symbol "\\").bind fun _ =>
    onward_identifier.bind fun _ => onward_pure _

theorem lays_path (s : Nat) : Lays s [] path := by
  unfold path
  refine Lays.pass onward_gap fun _ => Lays.position fun start => ?_
  refine Lays.pass (onward_nextIs _) fun rooted => ?_
  cases rooted with
  | true =>
    refine Lays.pass (onward_symbol _) fun _ => Lays.pass onward_identifier fun _ => ?_
    exact Lays.pass onward_segment.many fun _ => lays_nodeFrom (List.Sublist.refl _)
  | false =>
    refine Lays.keep lays_identifier fun single => Lays.pass onward_segment.many fun units => ?_
    cases units with
    | nil => exact lays_pure (List.Sublist.refl _)
    | cons _ _ => exact lays_nodeFrom (List.nil_sublist _)

theorem lays_anyName (s : Nat) : Lays s [] anyName :=
  Lays.pass onward_nextWord fun _ => Lays.keep lays_path fun _ => Lays.pass (onward_require _) fun _ =>
    lays_pure (List.Sublist.refl _)

theorem lays_dollarName (s : Nat) : Lays s [] dollarName :=
  lays_leaf ((onward_symbol "$").bind fun _ => onward_identifier.bind fun _ => onward_pure _) s

theorem lays_nameList (s : Nat) : Lays s [] nameList := lays_commaList1 lays_anyName s

/-! ## Outside the tags -/

theorem lays_interpolations (attributes : Bool) (s : Nat) : Lays s [] (interpolations attributes) := by
  have hgo : ∀ fuel s, Lays s [] (interpolations.go attributes fuel) := by
    intro fuel
    induction fuel with
    | zero => exact fun s => lays_pure (List.Sublist.refl _)
    | succ fuel ih =>
      intro s
      rw [interpolations.go]
      refine Lays.pass onward_remaining fun bytes => Lays.pass (onward_advance _) fun _ => ?_
      refine Lays.pass onward_remaining fun here => ?_
      split
      · exact lays_pure (List.Sublist.refl _)
      · intro source c d a hc hs hrun
        rw [run_bind_some run_position, run_bind_some (run_advance _)] at hrun
        have hstretch : Laid source s (c.offset + interpolationLength here)
            [.mk .interpolation c.offset (c.offset + interpolationLength here) []] :=
          (Laid.nil (Nat.le_add_right _ _)).plain.mono hs.le (Nat.le_refl _)
        exact Lays.keep ih (fun more => lays_pure (by simp)) (hc.past _) hstretch hrun
  exact Lays.pass onward_turns fun fuel => hgo fuel s

end Reader

/-- The entry points of a grammar give nodes in order. -/
structure Grammar.LaysOut (g : Grammar) : Prop where
  expression : ∀ least s, Lays s [] (g.expression least)
  operand : ∀ s, Lays s [] g.operand
  statement : ∀ s, Lays s [] g.statement

theorem Grammar.LaysOut.place {g : Grammar} (hg : g.LaysOut) (s : Nat) : Lays s [] g.place := by
  refine Lays.keep hg.operand fun o => Lays.pass (onward_require _) fun _ => ?_
  exact lays_pure (List.Sublist.refl _)

end FacadeStubs.Php
