import FacadeStubs.Proofs.Layout.Parameters
import FacadeStubs.Proofs.Layout.PlainText

/-!
# Nodes of texts in order

Strings, commands and heredocs. The variables and expressions in them are nodes in order, and those in a text
between double quotes stand where something opens that no backslash escapes (`lays_encapsedString`).

For the latter, each turn of the reader of such a text leaves no backslash open: it reads plain text, an escape
sequence, or something that ends in another sign (`EndsPlainly`). `OpenInside` is what the turns keep.
-/
namespace FacadeStubs.Php

open Lexical Reader

/-! ## Readers that end on a sign -/

namespace Reader

section
variable {α β : Type} {r : Reader α} {f : α → Reader β}

/-- What a reader takes off its source ends in a byte that is no backslash. -/
def EndsPlainly (r : Reader α) : Prop := ∀ ⦃source : Bytes⦄ ⦃c d : Cursor⦄ ⦃a : α⦄, c.In source →
  r.run c = some (a, d) → d.In source ∧ ∃ front b, c.rest = front ++ b :: d.rest ∧
    d.offset = c.offset + (front.length + 1) ∧ b ≠ 92

/-- Between two places of a source is what is read there, unless the second is beyond its end. -/
theorem exists_between {source : Bytes} {c d : Cursor} (hc : c.In source) (hd : d.In source)
    (hle : c.offset ≤ d.offset) (hrest : d.rest ≠ []) :
    ∃ piece, c.rest = piece ++ d.rest ∧ d.offset = c.offset + piece.length := by
  have hlt : d.offset < source.length := by
    rw [hd.rest] at hrest
    exact Nat.lt_of_not_le fun h => hrest (List.drop_eq_nil_of_le h)
  have hdrop : c.rest.drop (d.offset - c.offset) = d.rest := by
    rw [hc.rest, hd.rest, List.drop_drop, Nat.add_sub_cancel' hle]
  have hlength : c.rest.length = source.length - c.offset := by rw [hc.rest, List.length_drop]
  refine ⟨c.rest.take (d.offset - c.offset), ?_, ?_⟩
  · rw [← hdrop, List.take_append_drop]
  · rw [List.length_take]
    omega

theorem EndsPlainly.behind (h : Onward r) (hf : ∀ a, EndsPlainly (f a)) : EndsPlainly (r >>= f) := by
  intro source c d b hc hrun
  obtain ⟨a, e, hr, hrest⟩ := run_bind_eq_some hrun
  obtain ⟨he, hle⟩ := h hc hr
  obtain ⟨hd, front, last, hsplit, hoffset, hlast⟩ := hf a he hrest
  obtain ⟨piece, hpiece, hplace⟩ := exists_between hc he hle (by rw [hsplit]; simp)
  refine ⟨hd, piece ++ front, last, ?_, ?_, hlast⟩
  · rw [hpiece, hsplit, List.append_assoc]
  · rw [hoffset, hplace, List.length_append]
    omega

/-- A value may be made of what was read. -/
theorem EndsPlainly.gives (h : EndsPlainly r) (hf : ∀ a c, ∃ b, (f a).run c = some (b, c)) :
    EndsPlainly (r >>= f) := by
  intro source c d b hc hrun
  obtain ⟨a, e, hr, hrest⟩ := run_bind_eq_some hrun
  obtain ⟨b', hb'⟩ := hf a e
  rw [hb'] at hrest
  cases hrest
  exact h hc hr

theorem EndsPlainly.yields {f : α → β} (h : EndsPlainly r) : EndsPlainly (r >>= fun a => pure (f a)) :=
  h.gives fun a _ => ⟨f a, rfl⟩

theorem EndsPlainly.ite {r' : Reader α} {p : Prop} [Decidable p] (h : EndsPlainly r) (h' : EndsPlainly r') :
    EndsPlainly (if p then r else r') := by
  split
  · exact h
  · exact h'

theorem endsPlainly_symbol {text : String} {sign : Char} (htext : text.toList = [sign])
    (hsign : ascii sign ≠ 92) : EndsPlainly (symbol text) := by
  refine EndsPlainly.behind onward_gap fun _ => ?_
  intro source c d a hc hrun
  rw [run_bind_some run_remaining] at hrun
  obtain ⟨_, e, hrequire, hadvance⟩ := run_bind_eq_some hrun
  obtain ⟨hbegins, rfl⟩ := of_require hrequire
  obtain ⟨rest, hrest⟩ := (beginsWith_single htext).1 hbegins
  have hlength : text.length = 1 := by rw [← String.length_toList, htext, List.length_singleton]
  rw [run_advance, hlength] at hadvance
  cases hadvance
  refine ⟨hc.past 1, [], ascii sign, ?_, rfl, hsign⟩
  rw [Cursor.past_rest, hrest]
  rfl

theorem endsPlainly_identifier : EndsPlainly identifier := by
  intro source c d n hc hrun
  have hlabel := isLabelByte_of_mem_nameLength (s := c.rest.drop (gaps c.rest))
  have hle := nameLength_le (c.rest.drop (gaps c.rest))
  by_cases h0 : nameLength (c.rest.drop (gaps c.rest)) = 0
  · rw [run_identifier_none h0] at hrun
    cases hrun
  rw [run_identifier rfl rfl h0] at hrun
  cases hrun
  refine ⟨hc.past _, ?_⟩
  rw [Cursor.past_rest, Cursor.past_offset]
  generalize gaps c.rest = k at hlabel hle h0 ⊢
  generalize nameLength (c.rest.drop k) = m at hlabel hle h0 ⊢
  rw [List.length_drop] at hle
  have hname : (c.rest.drop k).take m ≠ [] := by
    intro hnil
    have hlength := congrArg List.length hnil
    rw [List.length_take, List.length_drop, List.length_nil] at hlength
    omega
  obtain ⟨front, last, hsplit⟩ : ∃ front last, (c.rest.drop k).take m = front ++ [last] :=
    ⟨_, _, (List.dropLast_concat_getLast hname).symm⟩
  have hlength : m = front.length + 1 := by
    have hcount := congrArg List.length hsplit
    rw [List.length_take, List.length_drop, List.length_append, List.length_singleton] at hcount
    omega
  refine ⟨c.rest.take k ++ front, last, ?_, ?_, ?_⟩
  · calc c.rest = c.rest.take k ++ ((c.rest.drop k).take m ++ (c.rest.drop k).drop m) := by
          rw [List.take_append_drop, List.take_append_drop]
      _ = c.rest.take k ++ front ++ last :: c.rest.drop (k + m) := by
          rw [hsplit, List.drop_drop]
          simp
  · rw [List.length_append, List.length_take]
    omega
  · rintro rfl
    have hlast := hlabel 92 (by rw [hsplit]; simp)
    cases hlast

theorem EndsPlainly.between {opening closing : String} (sign : Char) (h : Onward r)
    (htext : closing.toList = [sign]) (hsign : ascii sign ≠ 92) : EndsPlainly (between opening closing r) :=
  EndsPlainly.behind (onward_symbol opening) fun _ => EndsPlainly.behind h.inner fun _ =>
    (endsPlainly_symbol htext hsign).yields

end

end Reader

/-! ## Tokens of texts -/

theorem lays_plainString (s : Nat) : Lays s [] plainString := by
  refine lays_leaf (onward_remaining.bind fun bytes => (onward_require _).bind fun _ => ?_) s
  split
  · exact onward_advance _
  · exact onward_failure

theorem onward_plainInteger : Onward plainInteger :=
  onward_gap.bind fun _ => onward_remaining.bind fun _ => (onward_require _).bind fun _ =>
    onward_advance _

theorem onward_simpleIndex : Onward simpleIndex := by
  refine onward_ahead.bind fun bytes => ?_
  split
  · rw [seqRight_eq_bind]
    exact (onward_symbol _).bind fun _ => onward_plainInteger
  · split
    · exact (Lays.onward lays_dollarName).bind fun _ => onward_pure _
    · split
      · exact onward_plainInteger
      · exact onward_identifier.bind fun _ => onward_pure _

theorem onward_heredocLabel : ∀ fuel, Onward (heredocLabel fuel)
  | 0 => onward_failure
  | fuel + 1 => by
    rw [heredocLabel]
    refine onward_remaining.bind fun bytes => ?_
    dsimp only
    split
    · exact (onward_require _).bind fun _ => (onward_advance _).bind fun _ => onward_heredocLabel fuel
    · exact (onward_advance _).bind fun _ => onward_pure _

theorem onward_heredocOpening : Onward heredocOpening := by
  have hquote : ∀ c, Onward (heredocOpening.quote c) := fun c =>
    onward_remaining.bind fun _ => (onward_require _).bind fun _ => onward_advance 1
  refine onward_turns.bind fun fuel => (onward_heredocLabel fuel).maybe.bind fun found => ?_
  split
  · exact ((hquote _).orElse (onward_pure _)).bind fun _ => onward_pure _
  · refine onward_gap.bind fun _ => (onward_nextIs _).bind fun single => ?_
    split
    · refine (onward_symbol _).bind fun _ => (onward_heredocLabel fuel).bind fun _ => ?_
      exact (hquote _).bind fun _ => onward_pure _
    · refine (onward_symbol _).bind fun _ => (onward_heredocLabel fuel).bind fun _ => ?_
      exact ((hquote _).orElse (onward_pure _)).bind fun _ => onward_pure _

theorem onward_endsAtOnce (label : Bytes) : ∀ fuel, Onward (endsAtOnce label fuel)
  | 0 => onward_failure
  | fuel + 1 => by
    rw [endsAtOnce]
    refine onward_remaining.bind fun bytes => ?_
    split
    · exact (onward_advance _).bind fun _ => onward_pure _
    · dsimp only
      split
      · refine (onward_require _).bind fun _ => (onward_advance _).bind fun _ => ?_
        exact onward_endsAtOnce label fuel
      · exact (onward_advance _).bind fun _ => onward_pure _

theorem onward_verbatimLines (label : Bytes) : ∀ fuel, Onward (verbatimLines label fuel)
  | 0 => onward_failure
  | fuel + 1 => by
    rw [verbatimLines]
    refine onward_remaining.bind fun bytes => ?_
    dsimp only
    split
    · exact onward_advance _
    · refine (onward_require _).bind fun _ => (onward_advance _).bind fun _ => ?_
      exact onward_verbatimLines label fuel

/-! ## Variables in texts -/

theorem gaps_sign {a : UInt8} {rest : Bytes} (h : isSolid a = true) : gaps (a :: rest) = 0 :=
  (beginsToken_solid h).gaps

/-- A variable begins at its dollar sign. -/
theorem start_simpleVariable {g : Grammar} {c d : Cursor} {v : Node}
    (hrun : (simpleVariable g).run c = some (v, d)) : v.start = c.offset + gaps c.rest := by
  have hfrom : ∀ {kind : Kind} {start : Nat} {children : List Node} {c d : Cursor} {n : Node},
      (nodeFrom kind start children).run c = some (n, d) → n.start = start := by
    intro kind start children c d n h
    rw [run_nodeFrom] at h
    cases h
    rfl
  unfold simpleVariable at hrun
  rw [run_bind_some run_turns, simpleVariable.go, run_bind_some run_gap, run_bind_some run_position] at hrun
  obtain ⟨_, e, -, hrun⟩ := run_bind_eq_some hrun
  rw [run_bind_some run_ahead] at hrun
  split at hrun
  · obtain ⟨_, _, -, hrun⟩ := run_bind_eq_some hrun
    exact hfrom hrun
  · split at hrun
    · obtain ⟨_, _, -, hrun⟩ := run_bind_eq_some hrun
      exact hfrom hrun
    · obtain ⟨_, _, -, hrun⟩ := run_bind_eq_some hrun
      exact hfrom hrun

section
variable {g : Grammar} (hg : g.LaysOut)
include hg

/-! ## Texts with variables -/

theorem lays_embedded (s : Nat) : Lays s [] (embedded g) := by
  refine Lays.pass onward_remaining fun bytes => ?_
  split
  · exact Lays.pass (onward_advance _) fun _ => lays_pure (List.Sublist.refl _)
  · split
    · exact Lays.keep (lays_simpleVariable hg) fun v => lays_pure (List.Sublist.refl _)
    · split
      · exact Lays.pass onward_simpleIndex.between fun _ => lays_pure (List.Sublist.refl _)
      · split
        · refine Lays.pass (onward_symbol _) fun _ => Lays.pass onward_identifier fun _ => ?_
          exact lays_pure (List.Sublist.refl _)
        · refine Lays.keep (fun s => (hg.expression _ s).between) fun e => ?_
          exact lays_pure (List.Sublist.refl _)

theorem lays_inside (e : Enclosure) : ∀ fuel named s, Lays s [] (inside g e fuel named)
  | 0, _, _ => lays_failure
  | fuel + 1, named, s => by
    rw [inside]
    refine Lays.pass onward_remaining fun bytes => ?_
    split
    · exact Lays.pass (onward_advance _) fun _ => lays_none s
    · split
      · exact lays_failure
      · refine Lays.keep (lays_embedded hg) fun p => ?_
        exact Lays.keep (lays_inside e fuel p.2) fun more => lays_pure (by simp)
      · exact Lays.pass (onward_advance _) fun _ => lays_inside e fuel false s

theorem endsPlainly_simpleVariable : EndsPlainly (simpleVariable g) := by
  have hgo : ∀ fuel, EndsPlainly (simpleVariable.go g fuel) := by
    intro fuel
    induction fuel with
    | zero =>
      intro source c d a hc hrun
      cases hrun
    | succ fuel ih =>
      have hgives : ∀ {kind : Kind} {start : Nat} {children : List Node} (c : Cursor),
          ∃ n, (nodeFrom kind start children).run c = some (n, c) := fun c => ⟨_, run_nodeFrom _ _ _⟩
      rw [simpleVariable.go]
      refine EndsPlainly.behind onward_gap fun _ => EndsPlainly.behind onward_position fun start => ?_
      refine EndsPlainly.behind (onward_symbol _) fun _ => EndsPlainly.behind onward_ahead fun bytes => ?_
      refine EndsPlainly.ite (ih.gives fun _ => hgives)
        (EndsPlainly.ite ?_ (endsPlainly_identifier.gives fun _ => hgives))
      exact (EndsPlainly.between '\x7d' (Lays.onward (hg.expression _)) rfl (by decide)).gives
        fun _ => hgives
  exact EndsPlainly.behind onward_turns hgo

/-! ## The inside of a text -/

omit hg in
/-- What is advanced over are bytes of the source, unless it ends before. -/
theorem Cursor.take_past {c : Cursor} {n : Nat} (h : (c.past n).rest ≠ []) :
    c.rest = c.rest.take n ++ (c.past n).rest ∧ (c.past n).offset = c.offset + (c.rest.take n).length := by
  have hle : n ≤ c.rest.length := Nat.le_of_not_lt fun hlt => h (List.drop_eq_nil_of_le (Nat.le_of_lt hlt))
  rw [Cursor.past_rest, Cursor.past_offset, List.take_append_drop, List.length_take, Nat.min_eq_left hle]
  exact ⟨rfl, rfl⟩

/-- Where plain text stops within a text, a stretch is read that leaves no backslash open, and what is read
there opens at the front. -/
theorem embedded_opens {source : Bytes} {named : Bool} {c d : Cursor} {ns : List Node} {isName : Bool}
    (hc : c.In source) (hstops : StopsText named c.rest) (hquote : c.rest.head? ≠ some 34)
    (hrun : (embedded g).run c = some ((ns, isName), d)) (hrest : d.rest ≠ []) :
    (∃ piece, c.rest = piece ++ d.rest ∧ d.offset = c.offset + piece.length ∧
      escapesNext 92 false piece = false) ∧ ∀ m ∈ ns, OpensPart c.rest c.offset m := by
  have hclosed : ∀ {α : Type} {r : Reader α} {a : α}, EndsPlainly r → r.run c = some (a, d) →
      ∃ piece, c.rest = piece ++ d.rest ∧ d.offset = c.offset + piece.length ∧
        escapesNext 92 false piece = false := by
    intro α r a hr hrun
    obtain ⟨-, front, last, hsplit, hoffset, hlast⟩ := hr hc hrun
    refine ⟨front ++ [last], ?_, ?_, escapesNext_concat hlast false front⟩
    · rw [hsplit, List.append_assoc]
      rfl
    · rw [hoffset, List.length_append]
      rfl
  unfold embedded at hrun
  rw [run_bind_some run_remaining] at hrun
  obtain ⟨bytes, hbytes⟩ : ∃ bytes, c.rest = bytes := ⟨_, rfl⟩
  rw [hbytes] at hstops hquote hrun
  cases hstops with
  | quote rest => exact absurd rfl hquote
  | @escape b rest hescape =>
    have hsign : beginsWith "\\" (92 :: b :: rest) = true := rfl
    rw [if_pos hsign, run_bind_some (run_advance _)] at hrun
    obtain ⟨hns, rfl⟩ := Prod.mk.inj (Option.some.inj hrun)
    obtain ⟨rfl, -⟩ := Prod.mk.inj hns
    have hlength : max 2 (escapeLength (b :: rest) + 1) = escapeLength (b :: rest) + 1 := by omega
    rw [List.drop_succ_cons, List.drop_zero, hlength] at hrest ⊢
    obtain ⟨hpiece, hoffset⟩ := Cursor.take_past hrest
    refine ⟨⟨_, hpiece, hoffset, ?_⟩, fun m hm => by cases hm⟩
    rw [hbytes]
    exact escapesNext_escape hescape
  | @dollar rest hbegins =>
    have hsign : beginsWith "$" (36 :: rest) = true := rfl
    rw [if_neg (by rintro ⟨⟩), if_pos hsign] at hrun
    obtain ⟨v, e, hv, hpure⟩ := run_bind_eq_some hrun
    cases hpure
    have hpiece := hclosed (endsPlainly_simpleVariable hg) hv
    refine ⟨hpiece, fun m hm => ?_⟩
    obtain rfl := List.mem_singleton.1 hm
    obtain ⟨b, rest, rfl⟩ : ∃ b rest', rest = b :: rest' := by
      cases rest with
      | nil => cases hbegins
      | cons b rest => exact ⟨b, rest, rfl⟩
    have hstart := start_simpleVariable hv
    rw [hbytes, gaps_sign rfl] at hstart
    exact .inr ⟨b, rest, hbytes, hbegins, hstart⟩
  | brace rest =>
    rw [if_neg (by rintro ⟨⟩), if_neg (by rintro ⟨⟩), if_neg (by rintro ⟨⟩), if_neg (by rintro ⟨⟩)] at hrun
    obtain ⟨e, _, he, hpure⟩ := run_bind_eq_some hrun
    cases hpure
    have hexpression : Onward (g.expression Strength.any) := Lays.onward (hg.expression _)
    have hpiece := hclosed (EndsPlainly.between '\x7d' hexpression rfl (by decide)) he
    exact ⟨hpiece, fun m _ => .inl ⟨rest, hbytes⟩⟩
  | element rest hnamed =>
    have hsign : beginsWith "[" (91 :: rest) = true := rfl
    rw [if_neg (by rintro ⟨⟩), if_neg (by rintro ⟨⟩), if_pos hsign] at hrun
    obtain ⟨_, _, he, hpure⟩ := run_bind_eq_some hrun
    cases hpure
    have hpiece := hclosed (EndsPlainly.between ']' onward_simpleIndex rfl (by decide)) he
    exact ⟨hpiece, fun m hm => by cases hm⟩
  | member hnamed hmember =>
    obtain ⟨harrow, -⟩ := Bool.and_eq_true_iff.1 hmember
    obtain ⟨rest, rfl⟩ : ∃ rest, bytes = 45 :: rest := by
      cases bytes with
      | nil => cases harrow
      | cons a rest =>
        obtain ⟨ha, -⟩ := Bool.and_eq_true_iff.1 (harrow : (ascii '-' == a && _) = true)
        exact ⟨rest, by rw [← beq_iff_eq.1 ha]; rfl⟩
    rw [if_neg (by rintro ⟨⟩), if_neg (by rintro ⟨⟩), if_neg (by rintro ⟨⟩), if_pos harrow] at hrun
    have hread : EndsPlainly (do
        symbol "->"
        let _ ← identifier
        return (([], false) : List Node × Bool)) :=
      EndsPlainly.behind (onward_symbol _) fun _ => endsPlainly_identifier.yields
    have hpiece := hclosed hread hrun
    obtain ⟨_, _, -, hrun⟩ := run_bind_eq_some hrun
    obtain ⟨_, _, -, hpure⟩ := run_bind_eq_some hrun
    cases hpure
    exact ⟨hpiece, fun m hm => by cases hm⟩

/-- What is read from one place to the quote that ends the text: of the nodes read, each opens where no
backslash in front of it escapes it. -/
def OpenInside (c d : Cursor) (ns : List Node) : Prop :=
  ∃ inner, c.rest = inner ++ 34 :: d.rest ∧ d.offset = c.offset + (inner.length + 1) ∧
    ∀ m ∈ ns, ∃ before after, inner = before ++ after ∧ escapesNext 92 false before = false ∧
      OpensPart after (c.offset + before.length) m

omit hg in
theorem OpenInside.rest_ne_nil {c d : Cursor} {ns : List Node} (h : OpenInside c d ns) : c.rest ≠ [] := by
  obtain ⟨inner, hinner, -⟩ := h
  rw [hinner]
  simp

omit hg in
/-- A stretch that leaves no backslash open may stand in front. -/
theorem OpenInside.behind {c d e : Cursor} {ns : List Node} {piece : Bytes} (h : OpenInside e d ns)
    (hpiece : c.rest = piece ++ e.rest) (hoffset : e.offset = c.offset + piece.length)
    (hescape : escapesNext 92 false piece = false) : OpenInside c d ns := by
  obtain ⟨inner, hinner, hstop, hall⟩ := h
  refine ⟨piece ++ inner, ?_, ?_, fun m hm => ?_⟩
  · rw [hpiece, hinner, List.append_assoc]
  · rw [hstop, hoffset, List.length_append]
    omega
  · obtain ⟨before, after, rfl, hbefore, hopens⟩ := hall m hm
    refine ⟨piece ++ before, after, (List.append_assoc _ _ _).symm, ?_, ?_⟩
    · rw [escapesNext_append, hescape, hbefore]
    · rw [List.length_append, ← Nat.add_assoc, ← hoffset]
      exact hopens

omit hg in
/-- What opens in front of the quote opens within the text. -/
theorem OpensPart.inside {before rest : Bytes} {place : Nat} {m : Node}
    (h : OpensPart (before ++ 34 :: rest) place m) : OpensPart before place m := by
  rcases before with _ | ⟨x, _ | ⟨y, more⟩⟩
  · rcases h with ⟨r, h⟩ | ⟨b, r, h, -⟩ <;> cases h
  · rcases h with ⟨r, h⟩ | ⟨b, r, h, hbegins, -⟩
    · cases h
    · cases h
      cases hbegins
  · rcases h with ⟨r, h⟩ | ⟨b, r, h, hbegins, hstart⟩
    · cases h
      exact .inl ⟨more, rfl⟩
    · cases h
      exact .inr ⟨y, more, rfl, hbegins, hstart⟩

omit hg in
/-- What opens at the front is there too. -/
theorem OpenInside.also {c d : Cursor} {ns ms : List Node} (h : OpenInside c d ns)
    (hms : ∀ m ∈ ms, OpensPart c.rest c.offset m) : OpenInside c d (ms ++ ns) := by
  obtain ⟨inner, hinner, hstop, hall⟩ := h
  refine ⟨inner, hinner, hstop, fun m hm => ?_⟩
  rcases List.mem_append.1 hm with hm | hm
  · have hopens := hms m hm
    rw [hinner] at hopens
    exact ⟨[], inner, rfl, rfl, hopens.inside⟩
  · exact hall m hm

/-- By induction on the turns: each is plain text, or something that stops it. -/
theorem inside_opens : ∀ {fuel : Nat} {source : Bytes} {named : Bool} {c d : Cursor} {ns : List Node},
    c.In source → (inside g .quotes fuel named).run c = some (ns, d) → OpenInside c d ns
  | 0, _, _, _, _, _, _, hrun => by cases hrun
  | fuel + 1, source, named, c, d, ns, hc, hrun => by
    rw [inside, run_bind_some run_remaining] at hrun
    split at hrun
    next hend =>
      rw [run_bind_some (run_advance 1)] at hrun
      cases hrun
      obtain ⟨a, rest, hrest, ha⟩ : ∃ a rest, c.rest = a :: rest ∧ a = 34 := by
        cases hbytes : c.rest with
        | nil =>
          rw [hbytes] at hend
          cases hend
        | cons a rest =>
          rw [hbytes] at hend
          exact ⟨a, rest, rfl, beq_iff_eq.1 hend⟩
      refine ⟨[], ?_, rfl, fun m hm => by cases hm⟩
      rw [Cursor.past_rest, hrest, ha]
      rfl
    next hend =>
    split at hrun
    next => cases hrun
    next hzero =>
      obtain ⟨⟨nodes, isName⟩, e, hembedded, hrun⟩ := run_bind_eq_some hrun
      obtain ⟨more, d', hmore, hpure⟩ := run_bind_eq_some hrun
      cases hpure
      have hstops := (plainText_of_textLength? hzero).stops
      have hquote : c.rest.head? ≠ some 34 := by
        intro hhead
        rw [hhead] at hend
        exact hend rfl
      have he : e.In source := (Lays.onward (lays_embedded hg) hc hembedded).1
      have hinside := inside_opens he hmore
      obtain ⟨⟨piece, hpiece, hoffset, hescape⟩, hopens⟩ :=
        embedded_opens hg hc hstops hquote hembedded hinside.rest_ne_nil
      exact (hinside.behind hpiece hoffset hescape).also hopens
    next n hzero hn =>
      rw [run_bind_some (run_advance n)] at hrun
      have hinside := inside_opens (hc.past n) hrun
      obtain ⟨hpiece, hoffset⟩ := Cursor.take_past hinside.rest_ne_nil
      exact hinside.behind hpiece hoffset (plainText_of_textLength? hn).escapesNext

omit hg in
/-- The byte mark in front of a quote is a letter, or there is none. -/
theorem take_byteMark (bytes : Bytes) : bytes.take (byteMark bytes) ∈ [[], [98], [66]] ∧
    (bytes.take (byteMark bytes)).length = byteMark bytes := by
  unfold byteMark
  split
  next a b rest =>
    split
    next hmark =>
      obtain ⟨ha, -⟩ := Bool.and_eq_true_iff.1 hmark
      rcases Bool.or_eq_true_iff.1 ha with ha | ha
      · obtain rfl := beq_iff_eq.1 ha
        exact ⟨List.mem_cons_of_mem _ List.mem_cons_self, rfl⟩
      · obtain rfl := beq_iff_eq.1 ha
        exact ⟨List.mem_cons_of_mem _ (List.mem_cons_of_mem _ List.mem_cons_self), rfl⟩
    next => exact ⟨List.mem_cons_self, rfl⟩
  next => exact ⟨List.mem_cons_self, rfl⟩

theorem lays_encapsedString (s : Nat) : Lays s [] (encapsedString g) := by
  intro source c d n hc hs hrun
  unfold encapsedString nodeOf at hrun
  rw [run_bind_some run_gap, run_bind_some run_position] at hrun
  obtain ⟨ns, e, hchildren, hnode⟩ := run_bind_eq_some hrun
  rw [run_bind_some run_position] at hnode
  cases hnode
  rw [run_bind_some run_remaining] at hchildren
  obtain ⟨_, _, hrequire, hread⟩ := run_bind_eq_some hchildren
  obtain ⟨hquote, rfl⟩ := of_require hrequire
  rw [run_bind_some (run_advance _), run_bind_some run_turns] at hread
  have hstart : (c.past (gaps c.rest)).In source := hc.past _
  have hfirst : c.offset ≤ (c.past (gaps c.rest)).offset := Nat.le_add_right _ _
  generalize c.past (gaps c.rest) = b at hquote hread hstart hfirst ⊢
  obtain ⟨hmark, hlength⟩ := take_byteMark b.rest
  obtain ⟨rest, hrest⟩ := (beginsWith_single (c := '"') rfl).1 hquote
  have hfront := List.take_append_drop (byteMark b.rest) b.rest
  obtain ⟨inner, hinner, hstop, hall⟩ := inside_opens hg (hstart.past _) hread
  obtain ⟨he, hlaid⟩ :=
    lays_inside hg _ _ _ b.offset (hstart.past _) (Laid.nil (Nat.le_add_right _ _)) hread
  rw [Cursor.past_rest, ← List.drop_drop, hrest, List.drop_succ_cons, List.drop_zero] at hinner
  rw [Cursor.past_offset, ← hlength] at hstop hall
  rw [hrest, hinner] at hfront
  rw [nodes_list] at hlaid
  generalize b.rest.take (byteMark b.rest) = mark at hmark hfront hstop hall
  refine ⟨he, (hlaid.node (Node.fits_encapsedString fun m hm => ?_)).mono (Nat.le_trans hs.le hfirst)
    (Nat.le_refl _)⟩
  obtain ⟨before, after, rfl, hbefore, hopens⟩ := hall m hm
  refine ⟨mark, before, after, hmark, ?_, hbefore, hopens⟩
  have hsource : source.drop b.offset = mark ++ 34 :: (before ++ after ++ [34]) ++ d.rest := by
    rw [← hstart.rest, ← hfront]
    simp
  have hcount : d.offset = b.offset + (mark ++ 34 :: (before ++ after ++ [34])).length := by
    rw [hstop]
    simp only [List.length_append, List.length_cons, List.length_nil]
    omega
  show (source.drop b.offset).take (d.offset - b.offset) = _
  rw [hsource, hcount, Nat.add_sub_cancel_left, List.take_left]

/-! ## Commands and heredocs -/

theorem lays_shellCommand (s : Nat) : Lays s [] (shellCommand g) := by
  refine lays_nodeOf (fun s => Lays.pass onward_remaining fun bytes => ?_) s
  refine Lays.pass (onward_require _) fun _ => Lays.pass (onward_advance _) fun _ => ?_
  exact Lays.pass onward_turns fun fuel => lays_inside hg _ fuel false s

theorem lays_heredocLines (label : Bytes) : ∀ fuel named s, Lays s [] (heredocLines g label fuel named)
  | 0, _, _ => lays_failure
  | fuel + 1, named, s => by
    have hgoOn : ∀ n, Lays s [] (do
        advance n
        heredocLines g label fuel false) := fun n =>
      Lays.pass (onward_advance n) fun _ => lays_heredocLines label fuel false s
    have hfinish : ∀ n, Lays s [] (advance n >>= fun _ => pure [] : Reader (List Node)) := fun n =>
      Lays.pass (onward_advance n) fun _ => lays_none s
    rw [heredocLines]
    refine Lays.pass onward_remaining fun bytes => ?_
    split
    · refine Lays.pass (onward_require _) fun _ => ?_
      split
      · exact lays_failure
      · refine Lays.keep (lays_embedded hg) fun p => ?_
        exact Lays.keep (lays_heredocLines label fuel p.2) fun more => lays_pure (by simp)
      · exact hgoOn _
    · dsimp only
      split
      · exact hgoOn _
      · split
        · exact hfinish _
        · split
          · exact (hgoOn _).orElse (hfinish _)
          · exact hfinish _

theorem lays_heredoc (s : Nat) : Lays s [] (heredoc g) := by
  have hnote : ∀ b, Onward (modify fun c => { c with inHeredoc := b } : Reader Unit) :=
    fun b => onward_modify _ fun _ => ⟨rfl, rfl, rfl⟩
  refine lays_nodeOf (fun s => Lays.pass (onward_symbol _) fun _ => ?_) s
  refine Lays.pass onward_get fun c => Lays.pass (onward_require _) fun _ => ?_
  refine Lays.pass onward_heredocOpening fun opening => Lays.pass onward_turns fun fuel => ?_
  refine Lays.pass (onward_endsAtOnce _ fuel) fun ends => ?_
  split
  · exact lays_none s
  · split
    · exact Lays.pass (onward_verbatimLines _ fuel) fun _ => lays_none s
    · refine Lays.pass (hnote true) fun _ => Lays.keep (lays_heredocLines hg _ fuel false) fun nodes => ?_
      exact Lays.pass (hnote false) fun _ => lays_pure (by simp)

end

end FacadeStubs.Php
