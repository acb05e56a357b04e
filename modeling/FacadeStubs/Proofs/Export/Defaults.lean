import FacadeStubs.Proofs.Export.ArrayKeys
import FacadeStubs.Proofs.Export.ArrayText
import FacadeStubs.Proofs.Export.Kept
import FacadeStubs.Proofs.Reader.Methods

/-!
# Exported expressions as defaults

Behind the equals sign of a parameter an exported expression need not keep its tree; it only has to
be read as some expression. It is unless two signs of it make one token (`Loose`): in the expression
itself, or in an array, in a key of it or in a value that is left.

Results:
* `Writes.sound_key`, `Writes.sound`: keys and values that are no arrays.
* `Nested.sound`: wherever an expression is expected, the text of one is read, or it cannot be read.
* `isDefaultText_iff_loose`: the text of an expression is read as a default exactly if no two signs
  make one token in the shape in which the text is read.
-/
namespace FacadeStubs

open Php Lexical Reader

namespace Php

theorem closes_endsEntry {least : Nat} {u : Bytes} (h : EndsEntry u) : Closes least u := by
  obtain ⟨w, rfl | rfl⟩ := h
  · exact closes_closer rfl
  · exact closes_closer rfl

/-- Behind a blank a part is read as the default of a parameter, or it cannot be read. -/
theorem Part.Sound.behind_blank {p : Part} (h : p.Sound) {long : Bool} {source : Bytes} {n : Nat}
    (hn : p.bytes.length ≤ n) : Decides source false
      ((Grammar.upTo long (n + 1)).expression Strength.any) (32 :: p.bytes) EndsEntry (p.post source)
      p.good := by
  have hskip : ∀ {c : Cursor} {u : Bytes}, c.rest = 32 :: p.bytes ++ u →
      (c.past 1).rest = p.bytes ++ u ∧ ((Grammar.upTo long (n + 1)).expression Strength.any).run c =
        (expressionWith (Grammar.upTo long n) Strength.any).run (c.past 1) := by
    intro c u hr
    have hrest : (c.past 1).rest = p.bytes ++ u := by simp [hr]
    have hgap : gapsBeforeAttributes c.rest = 1 := by
      rw [hr, List.cons_append, gapsBeforeAttributes_space rfl, (h.begins u).gapsBeforeAttributes]
    exact ⟨hrest, Written.run_expressionWith_gap (Grammar.upTo long n) Strength.any hgap
      (by rw [hrest]; exact h.begins u)⟩
  refine ⟨fun hgood c u hc hr hu => ?_, fun hbad u hu c hc hr => ?_⟩
  · obtain ⟨hrest, hrun⟩ := hskip hr
    obtain ⟨x, hx, hpost⟩ := (h.decides hn).reads hgood (hc.past 1) hrest (closes_endsEntry hu)
    refine ⟨x, ?_, hpost⟩
    rw [hrun, hx, Cursor.past_past, List.length_cons, Nat.add_comm]
  · obtain ⟨hrest, hrun⟩ := hskip hr
    exact hrun.trans ((h.decides hn).breaks hbad u (closes_endsEntry hu) (hc.past 1) hrest)

section
variable {t : Bytes} {good : Prop}

theorem isDefaultText_of_sound (h : (barePart t good).Sound) (hgood : good) : IsDefaultText t :=
  fun _ _ _ hn => (h.behind_blank hn).reads hgood

theorem isBrokenDefault_of_sound (h : (barePart t good).Sound) (hbad : ¬ good) : IsBrokenDefault t :=
  fun _ _ _ hn => (h.behind_blank hn).breaks hbad

/-- What cannot be read as a default is none. -/
theorem IsBrokenDefault.not_isDefaultText (h : IsBrokenDefault t) : ¬ IsDefaultText t := by
  intro hd
  let c : Cursor := { rest := 32 :: t ++ [41], offset := 0, size := (32 :: t ++ [41]).length }
  have hc : c.Stands (32 :: t ++ [41]) false := ⟨⟨rfl, rfl⟩, rfl, rfl⟩
  have hclose : EndsEntry [41] := ⟨[], .inr rfl⟩
  have hnone := h true (32 :: t ++ [41]) t.length (Nat.le_refl _) [41] hclose hc rfl
  obtain ⟨node, hsome, -⟩ := hd true (32 :: t ++ [41]) t.length (Nat.le_refl _) hc rfl hclose
  rw [hnone] at hsome
  cases hsome

end

end Php

namespace Export

variable {index : ClassIndex} {budget : Nat} {v d : Literal} {c n : String}

/-! ## Keys -/

theorem sound_scalar {t : String} (h : scalarText? v = some t) :
    (barePart (Utf8.bytesOf t) (scalarWritten v).Loose).Sound :=
  scalarWritten_text h ▸ Written.sound_bare (scalarWritten_proper h)

theorem scalarWritten_loose {t : String} (h : scalarText? v = some t) : (scalarWritten v).Loose :=
  (Written.groupedBy_iff.1 (scalarWritten_grouped h)).2

/-- A key that is a scalar is written as a scalar, which is always read. -/
theorem sound_scalarKey {t : String} (h : scalarText? v = some t) : ∃ x, scalarKey? v = some x ∧
    (barePart (Utf8.bytesOf x.text) (scalarWritten v).Loose).Sound := by
  have hkey : ∃ x w, scalarKey? v = some x ∧ scalarText? w = some x.text := by
    cases v with
    | null => exact ⟨_, .str "", rfl, rfl⟩
    | bool b => exact ⟨_, .int (if b then 1 else 0), rfl, rfl⟩
    | int i => exact ⟨_, .int i, rfl, rfl⟩
    | float f => exact ⟨_, .int f.toInt64, rfl, rfl⟩
    | str s =>
      rw [scalarKey?]
      cases Decimal.canonicalInt? s with
      | some i => exact ⟨_, .int i, rfl, rfl⟩
      | none => exact ⟨_, .str s, rfl, rfl⟩
    | _ => cases h
  obtain ⟨x, w, hx, hw⟩ := hkey
  exact ⟨x, hx, (sound_scalar hw).imp rfl (fun _ _ hnode => hnode)
    (iff_of_true (scalarWritten_loose hw) (scalarWritten_loose h))⟩

/-- A key that is an operator is written as what it folds to, or as its own text. -/
theorem Writes.sound_operatorKey {w : Written} (h : Writes index budget v w) (hv : isOperator v = true)
    (hfolded : ∀ u, fold index budget v = some u → w = scalarWritten u)
    (restart : Literal → Option String) : ∃ x, keyOf? (levelAt index restart budget) v = some x ∧
      (barePart (Utf8.bytesOf x.text) w.Loose).Sound := by
  rw [keyOf?_operator hv, levelAt_fold]
  cases hfold : fold index budget v with
  | some u =>
    obtain ⟨t, ht⟩ := Option.isSome_iff_exists.1 (fold_scalar hfold)
    rw [hfolded u hfold]
    exact sound_scalarKey ht
  | none =>
    obtain ⟨t, ht, hbytes⟩ := h.exists_value? restart 0
    refine ⟨.verbatim t, by rw [ht]; rfl, ?_⟩
    rw [ArrayKey.text, hbytes]
    exact Written.sound_bare h.proper

/-- A key is read as an expression exactly if it would be as a value. -/
theorem Writes.sound_key {w : Written} (h : Writes index budget v w) (restart : Literal → Option String) :
    ∃ x, keyOf? (levelAt index restart budget) v = some x ∧
      (barePart (Utf8.bytesOf x.text) w.Loose).Sound := by
  induction h with
  | @scalar budget v t ht =>
    have hkey : keyOf? (levelAt index restart budget) v = scalarKey? v := by
      cases v <;> first | rfl | cases ht
    rw [hkey]
    exact sound_scalarKey ht
  | source hw htext => exact ⟨_, rfl, htext ▸ Written.sound_bare hw⟩
  | @unfollowed budget v c n hv hnamed hnone =>
    refine ⟨_, keyOf?_unfollowed restart hv hnone, ?_⟩
    have htext : ArrayKey.text (if isClassWord n then .str c else .verbatim ("\\" ++ c ++ "::" ++ n)) =
        referenceText c n := by
      unfold referenceText
      split <;> rfl
    rw [htext, referenceText_written]
    exact Written.sound_bare (referenceWritten_proper hnamed)
  | followed hv hd _ ih =>
    rw [keyOf?_followed restart hv hd]
    exact ih
  | unary hop hv _ =>
    exact (Writes.unary hop hv).sound_operatorKey rfl (fun u hu => by rw [hu]; rfl) restart
  | binary hop hl hr _ _ =>
    exact (Writes.binary hop hl hr).sound_operatorKey rfl (fun u hu => by rw [hu]; rfl) restart

/-! ## Arrays -/

/-- Expressions that are written, and arrays of such keys and of values that are written or arrays again.
Of a value that gives way to a later one nothing is asked. -/
inductive Nested (index : ClassIndex) : Nat → Literal → Prop
  | flat {budget : Nat} {v : Literal} {w : Written} : Writes index budget v w → Nested index budget v
  | followed {budget : Nat} {v d : Literal} {c n : String} : reference? v = some (c, n) →
      index.constant? c n = some d → Nested index budget d → Nested index (budget + 1) v
  | array {budget : Nat} {entries : List ArrayEntry} :
      (∀ entry ∈ entries, ∀ k, entry.key? = some k → ∃ w, Writes index budget k w) →
      (∀ w, Survives index budget entries w → Nested index budget w) →
      Nested index budget (.array entries)

/-- No two signs make one token: in an expression as it is written, in the keys of an array and in the
values that are left. -/
inductive Loose (index : ClassIndex) : Nat → Literal → Prop
  | flat {budget : Nat} {v : Literal} {w : Written} : Writes index budget v w → w.Loose →
      Loose index budget v
  | followed {budget : Nat} {v d : Literal} {c n : String} : reference? v = some (c, n) →
      index.constant? c n = some d → Loose index budget d → Loose index (budget + 1) v
  | array {budget : Nat} {entries : List ArrayEntry} :
      (∀ entry ∈ entries, ∀ k, entry.key? = some k → Loose index budget k) →
      (∀ w, Survives index budget entries w → Loose index budget w) →
      Loose index budget (.array entries)

theorem not_writes_array {entries : List ArrayEntry} {w : Written} :
    ¬ Writes index budget (.array entries) w := by
  intro h
  cases h with
  | scalar ht => cases ht
  | unfollowed hv _ _ => cases hv
  | followed hv _ _ => cases hv

/-- A reference whose definition is followed is written as the definition. -/
theorem Writes.of_followed {w : Written} (h : Writes index (budget + 1) v w)
    (hv : reference? v = some (c, n)) (hd : index.constant? c n = some d) : Writes index budget d w := by
  cases h with
  | scalar ht => cases v <;> cases hv <;> cases ht
  | source _ _ => cases hv
  | unfollowed hv' _ hnone =>
    cases hv.symm.trans hv'
    rcases hnone with hnone | hnone
    · cases hnone
    · cases hd.symm.trans hnone
  | followed hv' hd' h =>
    cases hv.symm.trans hv'
    cases hd.symm.trans hd'
    exact h
  | unary _ _ => cases hv
  | binary _ _ _ => cases hv

/-- Whether two signs make one token is the same for all that an expression is written as. -/
theorem Writes.loose_iff_loose {w w' : Written} (h : Writes index budget v w)
    (h' : Writes index budget v w') : w.Loose ↔ w'.Loose := by
  obtain ⟨t, ht, hbytes⟩ := h.exists_value? (fun _ => none) 0
  obtain ⟨t', ht', hbytes'⟩ := h'.exists_value? (fun _ => none) 0
  obtain rfl := Option.some.inj (ht.symm.trans ht')
  exact (Written.sound_bare h.proper).good_iff (Written.sound_bare h'.proper) (hbytes.symm.trans hbytes')

theorem Writes.loose_iff {w : Written} (h : Writes index budget v w) :
    Loose index budget v ↔ w.Loose := by
  refine ⟨fun hl => ?_, .flat h⟩
  induction hl with
  | flat h' hl => exact (h'.loose_iff_loose h).1 hl
  | followed hv hd _ ih => exact ih (h.of_followed hv hd)
  | array _ _ _ _ => exact absurd h not_writes_array

theorem loose_followed_iff (hv : reference? v = some (c, n)) (hd : index.constant? c n = some d) :
    Loose index (budget + 1) v ↔ Loose index budget d := by
  refine ⟨fun h => ?_, .followed hv hd⟩
  cases h with
  | flat h hl => exact .flat (h.of_followed hv hd) hl
  | followed hv' hd' hl =>
    cases hv.symm.trans hv'
    cases hd.symm.trans hd'
    exact hl
  | array _ _ => cases hv

theorem loose_array_iff {entries : List ArrayEntry} : Loose index budget (.array entries) ↔
    (∀ entry ∈ entries, ∀ k, entry.key? = some k → Loose index budget k) ∧
      ∀ w, Survives index budget entries w → Loose index budget w := by
  refine ⟨fun h => ?_, fun h => .array h.1 h.2⟩
  cases h with
  | flat h _ => exact absurd h not_writes_array
  | followed hv _ _ => cases hv
  | array hkeys hvalues => exact ⟨hkeys, hvalues⟩

/-- A key is read exactly if it can be. -/
theorem sound_key (h : ∃ w, Writes index budget v w) (restart : Literal → Option String) :
    ∃ x, keyOf? (levelAt index restart budget) v = some x ∧
      (barePart (Utf8.bytesOf x.text) (Loose index budget v)).Sound := by
  obtain ⟨w, h⟩ := h
  obtain ⟨x, hx, hsound⟩ := h.sound_key restart
  exact ⟨x, hx, hsound.imp rfl (fun _ _ hnode => hnode) h.loose_iff.symm⟩

theorem Writes.sound {w : Written} (h : Writes index budget v w) (restart : Literal → Option String)
    (indent : Nat) : ∃ t, value? (levelAt index restart budget) indent v = some t ∧
      (barePart (Utf8.bytesOf t) (Loose index budget v)).Sound := by
  obtain ⟨t, ht, hbytes⟩ := h.exists_value? restart indent
  exact ⟨t, ht, (Written.sound_bare h.proper).imp hbytes (fun _ _ hx => hx) h.loose_iff.symm⟩

section
variable {entries : List ArrayEntry} {pairs : List (ArrayKey × Literal)}

/-- The line of a pair: its key can be read if the keys of the entries can that stand under it. -/
def pairLine (index : ClassIndex) (budget indent : Nat) (entries : List ArrayEntry)
    (pair : ArrayKey × Literal) : ArrayLine where
  key := barePart (Utf8.bytesOf pair.1.text) (∀ entry ∈ entries, ∀ k, entry.key? = some k →
    keyOf? (levelAt index (text? index) budget) k = some pair.1 → Loose index budget k)
  blanks := valueBlanks indent (isArrayLiteral pair.2)
  value := barePart
    (Utf8.bytesOf ((value? (levelAt index (text? index) budget) (indent + 2) pair.2).getD ""))
    (Loose index budget pair.2)

variable {indent : Nat}

/-- Whatever key of an entry a written key comes from, it can be read or not. -/
theorem sound_pairKey (hkeys : ∀ entry ∈ entries, ∀ k, entry.key? = some k → ∃ w, Writes index budget k w)
    (hpairs : keyed? (levelAt index (text? index) budget) 0 entries = some pairs)
    {pair : ArrayKey × Literal} (hpair : pair ∈ pairs) :
    (pairLine index budget indent entries pair).key.Sound := by
  have hsame : ∀ entry ∈ entries, ∀ k, entry.key? = some k →
      keyOf? (levelAt index (text? index) budget) k = some pair.1 →
      (barePart (Utf8.bytesOf pair.1.text) (Loose index budget k)).Sound := by
    intro entry hentry k hk hx
    obtain ⟨x, hx', hsound⟩ := sound_key (hkeys entry hentry k hk) (text? index)
    obtain rfl := Option.some.inj (hx.symm.trans hx')
    exact hsound
  rcases mem_keyed? hpairs hpair with ⟨i, hi⟩ | ⟨entry, hentry, k, hk, hx⟩
  · have hint : scalarText? (.int i) = some pair.1.text := by rw [hi]; rfl
    have hloose : (scalarWritten (.int i)).Loose := scalarWritten_loose hint
    refine (sound_scalar hint).imp rfl (fun _ _ hnode => hnode) (iff_of_true hloose ?_)
    intro entry hentry k hk hx
    exact ((sound_scalar hint).good_iff (hsame entry hentry k hk hx) rfl).1 hloose
  · have hsound := hsame entry hentry k hk hx
    refine hsound.imp rfl (fun _ _ hnode => hnode) ⟨fun hl entry' hentry' k' hk' hx' => ?_,
      fun hl => hl entry hentry k hk hx⟩
    exact (hsound.good_iff (hsame entry' hentry' k' hk' hx') rfl).1 hl

/-- All lines that are left can be read exactly if the keys of the entries can and the values that are
left. -/
theorem good_pairLines_iff
    (hkeys : ∀ entry ∈ entries, ∀ k, entry.key? = some k → ∃ w, Writes index budget k w)
    (hpairs : keyed? (levelAt index (text? index) budget) 0 entries = some pairs) :
    (∀ pair ∈ putAll [] pairs, (pairLine index budget indent entries pair).good) ↔
      Loose index budget (.array entries) := by
  rw [loose_array_iff]
  constructor
  · intro h
    refine ⟨fun entry hentry k hk => ?_, fun w hw => ?_⟩
    · obtain ⟨x, hx, -⟩ := sound_key (hkeys entry hentry k hk) (text? index)
      have hmem : x ∈ (putAll [] pairs).map Prod.fst := by
        rw [putAll_keys, List.mem_eraseDups]
        exact exists_mem_keyed? hpairs hentry hk hx
      obtain ⟨pair, hpair, rfl⟩ := List.mem_map.1 hmem
      exact (h pair hpair).1 entry hentry k hk hx
    · obtain ⟨pairs', key, hpairs', hlast⟩ := hw
      obtain rfl := Option.some.inj (hpairs.symm.trans hpairs')
      exact (h (key, w) (mem_putAll.2 hlast)).2
  · intro h pair hpair
    exact ⟨fun entry hentry k hk _ => h.1 entry hentry k hk,
      h.2 pair.2 ⟨pairs, pair.1, hpairs, mem_putAll.1 hpair⟩⟩

theorem isBare_of_isLongArray {x : Node} {source : Bytes}
    (h : x.IsLongArray source (pairs.map (pairLine index budget indent entries))) : x.IsBare := by
  refine isBare_of (by rw [h.kind]; rfl) fun y hy => ?_
  obtain ⟨l, hl, hentry⟩ := exists_mem_of_forall₂ h.entries.flip y hy
  obtain ⟨pair, -, rfl⟩ := List.mem_map.1 hl
  obtain ⟨k, w, hchildren, hk, hw⟩ := hentry.parts
  refine isBare_of (by rw [hentry.kind]; rfl) fun z hz => ?_
  rw [hchildren] at hz
  rcases List.mem_cons.1 hz with rfl | hz
  · exact hk
  · obtain rfl := List.mem_singleton.1 hz
    exact hw

/-- An array is read exactly if its keys are and the values that are left. -/
theorem exists_sound_array
    (hkeys : ∀ entry ∈ entries, ∀ k, entry.key? = some k → ∃ w, Writes index budget k w)
    (hvalues : ∀ w, Survives index budget entries w →
      ∃ t, value? (levelAt index (text? index) budget) (indent + 2) w = some t ∧
        (barePart (Utf8.bytesOf t) (Loose index budget w)).Sound) :
    ∃ t, value? (levelAt index (text? index) budget) indent (.array entries) = some t ∧
      (barePart (Utf8.bytesOf t) (Loose index budget (.array entries))).Sound := by
  have hsome : (slots? (levelAt index (text? index) budget) (indent + 2) entries).isSome = true := by
    refine slots?_isSome_iff.2 fun entry hentry k hk => ?_
    obtain ⟨x, hx, -⟩ := sound_key (hkeys entry hentry k hk) (text? index)
    rw [hx]
    rfl
  obtain ⟨slots, hslots⟩ := Option.isSome_iff_exists.1 hsome
  obtain ⟨pairs, hpairs, hleft⟩ : ∃ pairs,
      keyed? (levelAt index (text? index) budget) 0 entries = some pairs ∧
        value? (levelAt index (text? index) budget) indent (.array entries) =
          pairsText? (levelAt index (text? index) budget) indent (putAll [] pairs) :=
    ⟨_, keyed?_eq hslots 0, value?_array hslots⟩
  have hsurvives : ∀ pair ∈ putAll [] pairs, Survives index budget entries pair.2 := fun pair hpair =>
    ⟨pairs, pair.1, hpairs, mem_putAll.1 hpair⟩
  -- the lines of the pairs are those of the text
  have hlines : List.Forall₂ (IsLineOf indent)
      ((putAll [] pairs).map fun pair =>
        (pair.1, valueSlot (levelAt index (text? index) budget) (indent + 2) pair.2))
      ((putAll [] pairs).map (pairLine index budget indent entries)) := by
    rw [List.forall₂_map_left_iff, List.forall₂_map_right_iff, List.forall₂_same]
    intro pair hpair
    obtain ⟨t, ht, -⟩ := hvalues pair.2 (hsurvives pair hpair)
    exact ⟨rfl, rfl, t, ht, by rw [pairLine, ht]; rfl⟩
  obtain ⟨texts, htexts, hbytes⟩ := exists_linesText hlines
  rw [List.mapM_map] at htexts
  refine ⟨_, by rw [hleft]; exact congrArg (Option.map _) htexts, ?_⟩
  have hsound : ∀ l ∈ (putAll [] pairs).map (pairLine index budget indent entries), l.Sound := by
    refine List.forall_mem_map.2 fun pair hpair => ?_
    obtain ⟨t, ht, hvalue⟩ := hvalues pair.2 (hsurvives pair hpair)
    refine ⟨all_valueBlanks _ _, sound_pairKey hkeys hpairs (mem_of_mem_putAll hpair), ?_⟩
    rw [pairLine, ht]
    exact hvalue
  exact (sound_array hsound (isGap_entryGap indent) (isGap_endGap indent)).imp hbytes
    (fun _ _ hx => isBare_of_isLongArray hx)
    (List.forall_mem_map.trans (good_pairLines_iff hkeys hpairs))

end

/-- The text of an expression is read exactly if no two signs make one token. -/
theorem Nested.sound (h : Nested index budget v) (indent : Nat) :
    ∃ t, value? (levelAt index (text? index) budget) indent v = some t ∧
      (barePart (Utf8.bytesOf t) (Loose index budget v)).Sound := by
  induction h generalizing indent with
  | flat h => exact h.sound (text? index) indent
  | followed hv hd _ ih =>
    obtain ⟨t, ht, hsound⟩ := ih indent
    refine ⟨t, by rw [value?_followed (text? index) indent hv hd, ht], ?_⟩
    exact hsound.imp rfl (fun _ _ hx => hx) (loose_followed_iff hv hd).symm
  | array hkeys _ ih => exact exists_sound_array hkeys fun w hw => ih w hw (indent + 2)

/-! ## Defaults -/

theorem Nested.sound_text (h : Nested index maxDepth v) :
    (barePart (Utf8.bytesOf (text index v)) (Loose index maxDepth v)).Sound := by
  obtain ⟨t, ht, hsound⟩ := h.sound 0
  have htext : text index v = t := by rw [text, text?_eq_value?, ht]; rfl
  rwa [htext]

/-- The text of an expression is read as a default or cannot be read as one. -/
theorem defaultText_cases (h : Nested index maxDepth v) :
    IsDefaultText (Utf8.bytesOf (text index v)) ∨ IsBrokenDefault (Utf8.bytesOf (text index v)) := by
  by_cases hl : Loose index maxDepth v
  · exact .inl (isDefaultText_of_sound h.sound_text hl)
  · exact .inr (isBrokenDefault_of_sound h.sound_text hl)

/-- The text of an expression is read as a default exactly if no two signs make one token in the
shape in which the text is read. -/
theorem isDefaultText_iff_loose (h : Nested index maxDepth v) :
    IsDefaultText (Utf8.bytesOf (text index v)) ↔ Loose index maxDepth v := by
  refine ⟨fun hd => ?_, isDefaultText_of_sound h.sound_text⟩
  by_contra hl
  exact (isBrokenDefault_of_sound h.sound_text hl).not_isDefaultText hd

end Export

end FacadeStubs
