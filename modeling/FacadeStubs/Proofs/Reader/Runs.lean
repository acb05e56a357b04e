import FacadeStubs.Proofs.Reader.Reading
import FacadeStubs.Proofs.Text.Utf8

/-!
# What a run shows

The other side of reading: not that a text is read, but what was read if a reader found something.
`Ensures source r post` says that `r`, from a place in the source on, stops at a place in the source
and gives a value of which `post` holds. The rules follow the combinators.

Results:
* `Ensures.bind`, `ensures_many`, `ensures_nodeOf`, `ensures_between`: the combinators.
* `bytes_identifier`: a word that was read is the name at the front.
* `chars_of_folded`: a word that is compared with a keyword is written in letters of the keyword, but
  for a long s at its front.
-/
namespace FacadeStubs.Php

open Lexical Reader Analysis

/-! ## Runs taken apart -/

section
variable {α β : Type} {c d : Cursor} {source : Bytes}

theorem Reader.run_bind_eq_some {r : Reader α} {f : α → Reader β} {x : β}
    (h : (r >>= f).run c = some (x, d)) :
    ∃ a e, r.run c = some (a, e) ∧ (f a).run e = some (x, d) := by
  rw [StateT.run_bind] at h
  cases hr : r.run c with
  | none =>
    rw [hr] at h
    cases h
  | some p =>
    rw [hr] at h
    exact ⟨p.1, p.2, rfl, h⟩

theorem Reader.of_yields {r : Reader α} {f : α → β} {x : β}
    (h : (r >>= fun a => pure (f a)).run c = some (x, d)) :
    ∃ a, r.run c = some (a, d) ∧ x = f a := by
  obtain ⟨a, e, hr, hpure⟩ := run_bind_eq_some h
  cases hpure
  exact ⟨a, hr, rfl⟩

theorem Reader.of_require {b : Bool} (h : (require b).run c = some ((), d)) : b = true ∧ d = c := by
  cases b with
  | false => cases h
  | true =>
    cases h
    exact ⟨rfl, rfl⟩

/-- A look behind an operand does not move. -/
theorem Reader.exists_behindOperand (c : Cursor) : ∃ w, behindOperand.run c = some (w, c) := by
  unfold behindOperand
  rw [run_bind_some run_remaining]
  show ∃ w, (if c.tagEnds = true then _ else _ : Reader Bytes).run c = some (w, c)
  split
  · exact ⟨_, rfl⟩
  · exact ⟨_, rfl⟩

theorem Reader.exists_thenIs (text : String) (c : Cursor) :
    ∃ b, (thenIs text).run c = some (b, c) := by
  obtain ⟨w, hw⟩ := exists_behindOperand c
  refine ⟨beginsWith text w, ?_⟩
  unfold thenIs
  rw [run_bind_some hw]
  rfl

end

/-! ## What is found anywhere -/

section
variable {α β : Type}

/-- Wherever a reader finds something, `post` holds of it. -/
def Finds (r : Reader α) (post : α → Prop) : Prop := ∀ ⦃c d : Cursor⦄ ⦃a : α⦄, r.run c = some (a, d) → post a

variable {r r' : Reader α} {post : α → Prop}

theorem finds_pure {a : α} (h : post a) : Finds (pure a) post := by
  intro c d b hrun
  cases hrun
  exact h

theorem finds_failure : Finds (failure : Reader α) post := by
  intro c d a hrun
  cases hrun

/-- What is found first does not matter for what is found behind it. -/
theorem Finds.behind {r : Reader β} {f : β → Reader α} (h : ∀ b, Finds (f b) post) :
    Finds (r >>= f) post := by
  intro c d a hrun
  obtain ⟨b, e, -, hrest⟩ := run_bind_eq_some hrun
  exact h b hrest

theorem Finds.bind {f : α → Reader β} {q : β → Prop} (h : Finds r post)
    (hf : ∀ a, post a → Finds (f a) q) : Finds (r >>= f) q := by
  intro c d b hrun
  obtain ⟨a, e, hr, hrest⟩ := run_bind_eq_some hrun
  exact hf a (h hr) hrest

theorem Finds.orElse (h : Finds r post) (h' : Finds r' post) : Finds (r <|> r') post := by
  intro c d a hrun
  rw [run_orElse] at hrun
  cases hr : r.run c with
  | none =>
    rw [hr] at hrun
    exact h' hrun
  | some p =>
    rw [hr] at hrun
    cases hrun
    exact h hr

theorem Finds.ite {p : Prop} [Decidable p] (h : Finds r post) (h' : Finds r' post) :
    Finds (if p then r else r') post := by
  split
  · exact h
  · exact h'

theorem finds_manyWithin (h : Finds r post) : ∀ fuel, Finds (manyWithin r fuel) fun as => ∀ a ∈ as, post a
  | 0 => finds_pure (by simp)
  | fuel + 1 => by
    have hnone : Finds (pure ([] : List α)) fun as => ∀ a ∈ as, post a := finds_pure (by simp)
    refine Finds.orElse (h.bind fun a ha => ?_) hnone
    exact (finds_manyWithin h fuel).bind fun as has => finds_pure (by simpa using ⟨ha, has⟩)

theorem finds_many (h : Finds r post) : Finds (many r) fun as => ∀ a ∈ as, post a :=
  Finds.behind fun fuel => finds_manyWithin h fuel

theorem finds_maybeNode {r : Reader Node} {post : Node → Prop} (h : Finds r post) :
    Finds (maybeNode r) fun ns => ∀ n ∈ ns, post n := by
  unfold maybeNode
  rw [map_eq_pure_bind]
  exact (h.bind fun n hn => finds_pure (by simpa using hn)).orElse (finds_pure (by simp))

theorem Finds.withTagEnds {b : Bool} (h : Finds r post) : Finds (withTagEnds b r) post :=
  Finds.behind fun _ => Finds.behind fun _ => h.bind fun _ ha => Finds.behind fun _ => finds_pure ha

theorem Finds.between {opening closing : String} (h : Finds r post) : Finds (between opening closing r) post :=
  Finds.behind fun _ => h.withTagEnds.bind fun _ ha => Finds.behind fun _ => finds_pure ha

theorem finds_nodeFrom (kind : Kind) (start : Nat) (children : List Node) :
    Finds (nodeFrom kind start children) fun n => n.kind = kind ∧ n.children = children :=
  Finds.behind fun _ => finds_pure ⟨rfl, rfl⟩

theorem finds_nodeOf {kind : Kind} {r : Reader (List Node)} {post : List Node → Prop} (h : Finds r post) :
    Finds (nodeOf kind r) fun n => n.kind = kind ∧ post n.children :=
  Finds.behind fun _ => Finds.behind fun _ => h.bind fun _ hns => Finds.behind fun _ => finds_pure ⟨rfl, hns⟩

theorem finds_leaf (kind : Kind) (token : Reader Unit) :
    Finds (leaf kind token) fun n => n.kind = kind ∧ n.children = [] := by
  have hnone : Finds (do token; return ([] : List Node)) fun ns => ns = [] :=
    Finds.behind fun _ => finds_pure rfl
  exact finds_nodeOf hnone

end

/-! ## The combinators -/

section
variable {α β : Type} {source : Bytes}

/-- A reader that finds something stops at a place in the source, where a closing tag means what it
meant before, and gives a value of which `post` holds. -/
def Ensures (source : Bytes) (r : Reader α) (post : α → Prop) : Prop :=
  ∀ ⦃c d : Cursor⦄ ⦃a : α⦄, c.In source → r.run c = some (a, d) →
    d.In source ∧ d.tagEnds = c.tagEnds ∧ post a

variable {r : Reader α} {post post' : α → Prop}

theorem Ensures.mono (h : Ensures source r post) (hpost : ∀ a, post a → post' a) :
    Ensures source r post' := by
  intro c d a hc hrun
  obtain ⟨hd, hmode, ha⟩ := h hc hrun
  exact ⟨hd, hmode, hpost a ha⟩

theorem Ensures.bind {f : α → Reader β} {q : β → Prop} (h : Ensures source r post)
    (hf : ∀ a, post a → Ensures source (f a) q) : Ensures source (r >>= f) q := by
  intro c d b hc hrun
  obtain ⟨a, e, hr, hrest⟩ := run_bind_eq_some hrun
  obtain ⟨he, hmode, ha⟩ := h hc hr
  obtain ⟨hd, hmode', hb⟩ := hf a ha he hrest
  exact ⟨hd, hmode'.trans hmode, hb⟩

theorem ensures_pure {a : α} (h : post a) : Ensures source (pure a) post := by
  intro c d b hc hrun
  cases hrun
  exact ⟨hc, rfl, h⟩

/-- What a reader gives is turned into something else. -/
theorem Ensures.yields {f : α → β} {q : β → Prop} (h : Ensures source r post)
    (hf : ∀ a, post a → q (f a)) : Ensures source (r >>= fun a => pure (f a)) q :=
  h.bind fun a ha => ensures_pure (hf a ha)

/-- A look ahead shows nothing of what is read. -/
theorem ensures_look (h : ∀ c : Cursor, ∃ a, r.run c = some (a, c)) :
    Ensures source r fun _ => True := by
  intro c d a hc hrun
  obtain ⟨b, hb⟩ := h c
  rw [hb] at hrun
  cases hrun
  exact ⟨hc, rfl, trivial⟩

theorem Ensures.orElse {r' : Reader α} (h : Ensures source r post) (h' : Ensures source r' post) :
    Ensures source (r <|> r') post := by
  intro c d a hc hrun
  rw [run_orElse] at hrun
  cases hr : r.run c with
  | none =>
    rw [hr] at hrun
    exact h' hc hrun
  | some p =>
    rw [hr] at hrun
    cases hrun
    exact h hc hr

theorem ensures_require {b : Bool} : Ensures source (require b) fun _ => b = true := by
  intro c d a hc hrun
  obtain ⟨hb, rfl⟩ := of_require hrun
  exact ⟨hc, rfl, hb⟩

theorem ensures_advance (n : Nat) : Ensures source (advance n) fun _ => True := by
  intro c d a hc hrun
  rw [run_advance] at hrun
  cases hrun
  exact ⟨hc.past n, rfl, trivial⟩

theorem ensures_gap : Ensures source gap fun _ => True :=
  (ensures_look fun c => ⟨c.rest, run_remaining⟩).bind fun w _ => ensures_advance (gaps w)

theorem ensures_position : Ensures source position fun _ => True :=
  ensures_look fun c => ⟨c.offset, run_position⟩

theorem ensures_symbol (text : String) : Ensures source (symbol text) fun _ => True := by
  unfold symbol
  refine ensures_gap.bind fun _ _ => ?_
  refine (ensures_look fun c => ⟨c.rest, run_remaining⟩).bind fun w _ => ?_
  exact ensures_require.bind fun _ _ => ensures_advance _

theorem ensures_nodeFrom (kind : Kind) (start : Nat) (children : List Node) :
    Ensures source (nodeFrom kind start children) fun n => n.kind = kind ∧ n.children = children :=
  ensures_position.yields fun _ _ => ⟨rfl, rfl⟩

theorem ensures_nodeOf {kind : Kind} {r : Reader (List Node)} {post : List Node → Prop}
    (h : Ensures source r post) :
    Ensures source (nodeOf kind r) fun n => n.kind = kind ∧ post n.children := by
  unfold nodeOf
  refine ensures_gap.bind fun _ _ => ensures_position.bind fun start _ => ?_
  exact h.bind fun ns hns => ensures_position.yields fun stop _ => ⟨rfl, hns⟩

theorem ensures_manyWithin (h : Ensures source r post) :
    ∀ fuel, Ensures source (manyWithin r fuel) fun as => ∀ a ∈ as, post a
  | 0 => ensures_pure (by simp)
  | fuel + 1 => by
    have hnone : Ensures source (pure ([] : List α)) fun as => ∀ a ∈ as, post a :=
      ensures_pure (by simp)
    refine Ensures.orElse (h.bind fun a ha => ?_) hnone
    exact (ensures_manyWithin h fuel).yields fun as has => by simpa using ⟨ha, has⟩

theorem ensures_many (h : Ensures source r post) :
    Ensures source (many r) fun as => ∀ a ∈ as, post a :=
  (ensures_look fun c => ⟨c.size + 1, run_turns⟩).bind fun fuel _ => ensures_manyWithin h fuel

/-- Where nothing was found, nothing was passed over. -/
theorem Reader.of_many_nil (h : (many r).run c = some ([], d)) : d = c := by
  unfold many at h
  rw [run_bind_some run_turns, manyWithin, run_orElse] at h
  cases hr : (do return (← r) :: (← manyWithin r c.size) : Reader (List α)).run c with
  | none =>
    rw [hr] at h
    cases h
    rfl
  | some p =>
    rw [hr] at h
    cases h
    obtain ⟨a, e, -, hrest⟩ := run_bind_eq_some hr
    obtain ⟨as, e', -, hpure⟩ := run_bind_eq_some hrest
    cases hpure

theorem Ensures.withTagEnds {m : Bool} (h : Ensures source r post) :
    Ensures source (withTagEnds m r) post := by
  intro c d a hc hrun
  unfold Reader.withTagEnds at hrun
  rw [run_bind_some run_get, run_bind_some (run_modify _)] at hrun
  obtain ⟨b, e, hr, hrest⟩ := run_bind_eq_some hrun
  obtain ⟨he, -, hb⟩ := h (c := { c with tagEnds := m }) ⟨hc.rest, hc.size⟩ hr
  rw [run_bind_some (run_modify _)] at hrest
  cases hrest
  exact ⟨⟨he.rest, he.size⟩, rfl, hb⟩

theorem ensures_between {opening closing : String} (h : Ensures source r post) :
    Ensures source (between opening closing r) post := by
  unfold between
  refine (ensures_symbol opening).bind fun _ _ => ?_
  exact h.withTagEnds.bind fun a ha => (ensures_symbol closing).yields fun _ _ => ha

end

/-! ## Names -/

section
variable {source : Bytes}

theorem ensures_identifier : Ensures source identifier fun n => n.kind = .name := by
  have hname : Ensures source (do
      let n := nameLength (← remaining)
      require (n != 0)
      advance n) fun _ => True := by
    refine (ensures_look fun c => ⟨c.rest, run_remaining⟩).bind fun w _ => ?_
    exact ensures_require.bind fun _ _ => ensures_advance _
  have hchildren : Ensures source (do
      (do
        let n := nameLength (← remaining)
        require (n != 0)
        advance n)
      return ([] : List Node)) fun _ => True := hname.yields fun _ _ => trivial
  exact (ensures_nodeOf hchildren).mono fun n hn => hn.1

theorem ensures_segment : Ensures source Reader.segment fun _ => True := by
  unfold Reader.segment
  refine (ensures_look (exists_thenIs "\\")).bind fun _ _ => ?_
  refine ensures_require.bind fun _ _ => (ensures_symbol "\\").bind fun _ _ => ?_
  exact ensures_identifier.yields fun _ _ => trivial

theorem ensures_path : Ensures source path fun _ => True := by
  unfold path
  refine ensures_gap.bind fun _ _ => ensures_position.bind fun start _ => ?_
  refine (ensures_look fun c => ⟨_, run_nextIs "\\"⟩).bind fun rooted _ => ?_
  cases rooted with
  | true =>
    refine (ensures_symbol "\\").bind fun _ _ => ensures_identifier.bind fun _ _ => ?_
    refine (ensures_many ensures_segment).bind fun _ _ => ?_
    exact (ensures_nodeFrom .qualifiedName start []).mono fun _ _ => trivial
  | false =>
    refine ensures_identifier.bind fun single _ => ?_
    refine (ensures_many ensures_segment).bind fun units _ => ?_
    cases units with
    | nil => exact ensures_pure trivial
    | cons _ _ => exact (ensures_nodeFrom .qualifiedName start []).mono fun _ _ => trivial

theorem ensures_anyName : Ensures source anyName fun _ => True := by
  unfold anyName
  refine (ensures_look fun c => ⟨_, run_nextWord⟩).bind fun _ _ => ?_
  exact ensures_path.bind fun _ _ => ensures_require.yields fun _ _ => trivial

/-- The bytes of a word are those of the name at the front. -/
theorem Reader.bytes_identifier {c d : Cursor} {n : Node} (hc : c.In source)
    (h : identifier.run c = some (n, d)) :
    n.bytes source = (c.rest.drop (gaps c.rest)).take (nameLength (c.rest.drop (gaps c.rest))) := by
  by_cases h0 : nameLength (c.rest.drop (gaps c.rest)) = 0
  · rw [run_identifier_none h0] at h
    cases h
  · rw [run_identifier rfl rfl h0] at h
    cases h
    rw [Nat.add_assoc]
    exact hc.bytes .name (gaps c.rest) _ []

end

/-! ## Words as they are compared -/

/-- A text of ASCII characters. -/
def IsAscii (t : List Char) : Prop := ∀ x ∈ t, x.toNat < 128

instance (t : List Char) : Decidable (IsAscii t) :=
  decidable_of_iff (t.all (fun x => decide (x.toNat < 128)) = true) (by simp [IsAscii])

/-- A text of ASCII characters to none of which a wide one is folded. -/
def IsUnfolded (t : List Char) : Prop := ∀ x ∈ t, (x ≠ 'k' ∧ x ≠ 's') ∧ x.toNat < 128

instance (t : List Char) : Decidable (IsUnfolded t) :=
  decidable_of_iff (t.all (fun x => decide ((x ≠ 'k' ∧ x ≠ 's') ∧ x.toNat < 128)) = true)
    (by simp [IsUnfolded])

/-- ASCII bytes are read as the characters that they are. -/
theorem bytesOf_ascii {s : Bytes} {text : List Char}
    (h : s.map (fun b => Char.ofNat b.toNat) = text) (htext : IsAscii text) :
    s = Utf8.encode text := by
  subst h
  rw [Utf8.encode_ascii htext, List.map_map]
  have hbyte : ∀ b : UInt8, (Char.ofNat b.toNat).toNat.toUInt8 = b := by
    intro b
    have hvalid : b.toNat.isValidChar := .inl (by have := b.toNat_lt; omega)
    have hnat : (Char.ofNat b.toNat).toNat = b.toNat := by
      rw [Char.ofNat, dif_pos hvalid]
      rfl
    rw [hnat]
    simp
  simp [Function.comp_def, hbyte]

/-- Without the letters that have another small form, a folded word is its bytes lowered. -/
theorem folded_eq_map {s : Bytes} (h : ∀ x ∈ folded s, x ≠ 'k' ∧ x ≠ 's') :
    folded s = s.map fun b => (Char.ofNat b.toNat).toLower := by
  fun_induction folded s with
  | case1 a b c rest hk => exact absurd rfl (h 'k' (by simp)).1
  | case2 a b c rest hk hs => exact absurd rfl (h 's' (by simp)).2
  | case3 a b c rest hk hs ih =>
    have hrest := ih fun x hx => h x (List.mem_cons_of_mem _ hx)
    rw [hrest]
    rfl
  | case4 a b hs => exact absurd rfl (h 's' (by simp)).2
  | case5 a b hs => rfl
  | case6 a => rfl
  | case7 => rfl

theorem toLower_ascii {x : Char} (h : x.toLower.toNat < 128) : x.toNat < 128 := by
  by_cases hupper : 65 ≤ x.val ∧ x.val ≤ 90
  · have hhigh : x.val.toNat ≤ 90 := hupper.2
    have hx : x.toNat = x.val.toNat := rfl
    omega
  · have hsame : x.toLower = x := dif_neg hupper
    rwa [hsame] at h

theorem isBlank_toLower {x : Char} (h : isBlank x = true) : isBlank x.toLower = true := by
  by_cases hupper : 65 ≤ x.val ∧ x.val ≤ 90
  · have hlow : 65 ≤ x.val.toNat := hupper.1
    have hhigh : x.val.toNat ≤ 90 := hupper.2
    have hx : x.toNat = x.val.toNat := rfl
    simp only [isBlank, Bool.or_eq_true, Bool.and_eq_true, decide_eq_true_eq, beq_iff_eq] at h
    omega
  · have hsame : x.toLower = x := dif_neg hupper
    rwa [hsame]

/-- Bytes that are lowered to an ASCII word are characters that are. -/
theorem chars_of_lowered {s : Bytes} {word : List Char}
    (h : s.map (fun b => (Char.ofNat b.toNat).toLower) = word) (hword : IsAscii word) :
    ∃ chars, s = Utf8.encode chars ∧ lowered chars = word := by
  refine ⟨s.map fun b => Char.ofNat b.toNat, bytesOf_ascii rfl fun x hx => ?_, ?_⟩
  · obtain ⟨b, hb, rfl⟩ := List.mem_map.1 hx
    exact toLower_ascii (hword _ (h ▸ List.mem_map_of_mem hb))
  · rw [lowered, List.map_map]
    exact h

/-- A folded word is written in letters that are lowered to it, but for a long s at its front. -/
theorem chars_of_folded {s : Bytes} {first : Char} {rest : List Char} (h : folded s = first :: rest)
    (hfirst : first ≠ 'k' ∧ first.toNat < 128) (hrest : IsUnfolded rest) :
    ∃ chars, s = Utf8.encode chars ∧
      (lowered chars = first :: rest ∨ first = 's' ∧ lowered chars = 'ſ' :: rest) := by
  have hplain : ∀ {a : UInt8} {t : Bytes}, (Char.ofNat a.toNat).toLower :: folded t = first :: rest →
      ∃ chars, a :: t = Utf8.encode chars ∧
        (lowered chars = first :: rest ∨ first = 's' ∧ lowered chars = 'ſ' :: rest) := by
    intro a t heq
    obtain ⟨ha, ht⟩ := List.cons.inj heq
    have hmap : (a :: t).map (fun b => (Char.ofNat b.toNat).toLower) = first :: rest := by
      rw [List.map_cons, ha, ← folded_eq_map (by rw [ht]; exact fun x hx => (hrest x hx).1), ht]
    have hascii : IsAscii (first :: rest) :=
      List.forall_mem_cons.2 ⟨hfirst.2, fun x hx => (hrest x hx).2⟩
    obtain ⟨chars, hchars, hlower⟩ := chars_of_lowered hmap hascii
    exact ⟨chars, hchars, .inl hlower⟩
  have hlong : ∀ {t : Bytes}, 's' :: folded t = first :: rest →
      ∃ chars, 0xC5 :: 0xBF :: t = Utf8.encode chars ∧
        (lowered chars = first :: rest ∨ first = 's' ∧ lowered chars = 'ſ' :: rest) := by
    intro t heq
    obtain ⟨rfl, ht⟩ := List.cons.inj heq
    have hmap : t.map (fun b => (Char.ofNat b.toNat).toLower) = rest := by
      rw [← folded_eq_map (by rw [ht]; exact fun x hx => (hrest x hx).1), ht]
    obtain ⟨chars, hchars, hlower⟩ := chars_of_lowered hmap fun x hx => (hrest x hx).2
    have hs : Utf8.encode ['ſ'] = [0xC5, 0xBF] := by decide
    refine ⟨'ſ' :: chars, ?_, .inr ⟨rfl, ?_⟩⟩
    · have hcons : Utf8.encode ('ſ' :: chars) = Utf8.encode ['ſ'] ++ Utf8.encode chars :=
        Utf8.encode_append ['ſ'] chars
      rw [hcons, hs, ← hchars]
      rfl
    · show 'ſ'.toLower :: lowered chars = _
      rw [hlower]
      rfl
  match s with
  | [] => cases h
  | [a] => exact hplain h
  | a :: b :: t =>
    by_cases hs : a = 0xC5 ∧ b = 0xBF
    · obtain ⟨rfl, rfl⟩ := hs
      apply hlong
      rw [← h]
      cases t <;> rfl
    · have hlong' : (a == 0xC5 && b == 0xBF) = false := by
        simpa using hs
      cases t with
      | nil =>
        apply hplain
        rw [← h, folded.eq_def]
        simp [hlong', folded, folded.lowered]
      | cons x t =>
        by_cases hk : (a == 0xE2 && b == 0x84 && x == 0xAA) = true
        · rw [folded, if_pos hk] at h
          exact absurd (List.cons.inj h).1.symm hfirst.1
        · apply hplain
          have hstep : folded (a :: b :: x :: t) =
              (Char.ofNat a.toNat).toLower :: folded (b :: x :: t) := by
            rw [folded, if_neg hk, if_neg (by simp [hlong'])]
            rfl
          rw [← h, hstep]

end FacadeStubs.Php
