import FacadeStubs.Export.Text
import FacadeStubs.Proofs.Export.Maps
import Mathlib.Data.List.Forall2
import Mathlib.Data.List.Induction

/-!
# The entries of an exported array

An array is exported in two passes: every entry gets its key, then an entry whose key comes again gives
way to the later one. Only the entries that are left need a text.

* `Literal.parts_induction`: induction over the parts of a constant expression;
* `slots?_eq_some_iff`: the entries of an array are written one by one;
* `mem_entriesByKey`: an entry is left if its key does not come again (`LastUnder`);
* `arrayText?_isSome_iff`: an array has a text if the entries that are left have one;
* `arrayText?_extends`: more texts of entries do not change the text of an array.
-/
namespace FacadeStubs

/-! ## Lists side by side -/

theorem exists_mem_of_forall₂ {α β : Type} {R : α → β → Prop} {xs : List α} {ys : List β}
    (h : List.Forall₂ R xs ys) : ∀ y ∈ ys, ∃ x ∈ xs, R x y := by
  induction h with
  | nil => simp
  | cons hxy _ ih =>
    refine List.forall_mem_cons.2 ⟨⟨_, List.mem_cons_self, hxy⟩, fun y hy => ?_⟩
    obtain ⟨x, hx, hr⟩ := ih y hy
    exact ⟨x, List.mem_cons_of_mem _ hx, hr⟩

theorem exists_forall₂ {α β : Type} {R : α → β → Prop} {xs : List α} (h : ∀ x ∈ xs, ∃ y, R x y) :
    ∃ ys, List.Forall₂ R xs ys := by
  induction xs with
  | nil => exact ⟨[], .nil⟩
  | cons x xs ih =>
    rw [List.forall_mem_cons] at h
    obtain ⟨y, hy⟩ := h.1
    obtain ⟨ys, hys⟩ := ih h.2
    exact ⟨y :: ys, .cons hy hys⟩

/-! ## Parts -/

/-- The expressions of an entry: its key, if it has one, and its value. -/
def ArrayEntry.parts (entry : ArrayEntry) : List Literal := entry.key?.toList ++ [entry.value]

@[simp] theorem ArrayEntry.parts_item (v : Literal) : (ArrayEntry.item v).parts = [v] := rfl

@[simp] theorem ArrayEntry.parts_pair (k v : Literal) : (ArrayEntry.pair k v).parts = [k, v] := rfl

/-- The expressions that an expression is put together from. -/
def Literal.parts : Literal → List Literal
  | .array entries => entries.flatMap ArrayEntry.parts
  | .binary _ l r => [l, r]
  | .unary _ v => [v]
  | _ => []

section Induction

variable {P : Literal → Prop}

mutual

theorem Literal.parts_induction (step : ∀ v : Literal, (∀ w ∈ v.parts, P w) → P v) : ∀ v, P v
  | .null => step _ (by simp [Literal.parts])
  | .bool _ => step _ (by simp [Literal.parts])
  | .int _ => step _ (by simp [Literal.parts])
  | .float _ => step _ (by simp [Literal.parts])
  | .str _ => step _ (by simp [Literal.parts])
  | .expr _ => step _ (by simp [Literal.parts])
  | .classConst _ _ => step _ (by simp [Literal.parts])
  | .lateStatic _ _ => step _ (by simp [Literal.parts])
  | .unary _ v => step _ (by simpa [Literal.parts] using Literal.parts_induction step v)
  | .binary _ l r => step _ (by
      simpa [Literal.parts] using ⟨Literal.parts_induction step l, Literal.parts_induction step r⟩)
  | .array entries => step _ (entries_induction step entries)

theorem entries_induction (step : ∀ v : Literal, (∀ w ∈ v.parts, P w) → P v) :
    ∀ entries : List ArrayEntry, ∀ w ∈ entries.flatMap ArrayEntry.parts, P w
  | [] => by simp
  | .item v :: rest => by
    have hv := Literal.parts_induction step v
    have hrest := entries_induction step rest
    simp only [List.flatMap_cons, List.mem_append]
    rintro w (hw | hw)
    · obtain rfl : w = v := by simpa [ArrayEntry.parts, ArrayEntry.key?, ArrayEntry.value] using hw
      exact hv
    · exact hrest w hw
  | .pair k v :: rest => by
    have hk := Literal.parts_induction step k
    have hv := Literal.parts_induction step v
    have hrest := entries_induction step rest
    simp only [List.flatMap_cons, List.mem_append]
    rintro w (hw | hw)
    · obtain rfl | rfl : w = k ∨ w = v := by
        simpa [ArrayEntry.parts, ArrayEntry.key?, ArrayEntry.value] using hw
      · exact hk
      · exact hv
    · exact hrest w hw

end

end Induction

namespace Export

/-! ## Entries one by one -/

theorem slots?_eq_some_iff {level : Level} {indent : Nat} {entries : List ArrayEntry}
    {slots : List Slot} :
    slots? level indent entries = some slots ↔
      List.Forall₂ (fun entry slot => slot? level indent entry = some slot) entries slots := by
  induction entries generalizing slots with
  | nil => cases slots <;> simp [slots?]
  | cons entry rest ih =>
    simp only [slots?]
    cases hslot : slot? level indent entry with
    | none =>
      constructor
      · intro h
        cases h
      · intro h
        cases h with
        | cons h _ =>
          rw [hslot] at h
          cases h
    | some slot =>
      cases hrest : slots? level indent rest with
      | none =>
        constructor
        · intro h
          cases h
        · intro h
          cases h with
          | cons _ h =>
            rw [ih.mpr h] at hrest
            cases hrest
      | some others =>
        constructor
        · intro h
          obtain rfl : slot :: others = slots := by simpa using h
          exact .cons hslot (ih.mp hrest)
        · intro h
          cases h with
          | cons h ht =>
            rw [hslot] at h
            rw [ih.mpr ht] at hrest
            obtain rfl := Option.some.inj h
            obtain rfl := Option.some.inj hrest
            rfl

/-! ## Keys that come again -/

section LastUnder

variable {α β : Type}

/-- A pair of a list whose key does not come again. -/
def LastUnder (pairs : List (ArrayKey × α)) (pair : ArrayKey × α) : Prop :=
  ∃ before after, pairs = before ++ pair :: after ∧ ∀ p ∈ after, p.1 ≠ pair.1

theorem LastUnder.mem {pairs : List (ArrayKey × α)} {pair : ArrayKey × α} (h : LastUnder pairs pair) :
    pair ∈ pairs := by
  obtain ⟨before, after, rfl, -⟩ := h
  simp

theorem lastUnder_concat {pairs : List (ArrayKey × α)} {last pair : ArrayKey × α} :
    LastUnder (pairs ++ [last]) pair ↔ pair = last ∨ pair.1 ≠ last.1 ∧ LastUnder pairs pair := by
  constructor
  · rintro ⟨before, after, heq, hlast⟩
    rcases List.eq_nil_or_concat after with rfl | ⟨front, final, rfl⟩
    · left
      obtain ⟨-, hpair⟩ := List.append_inj' heq rfl
      simpa using hpair.symm
    · right
      rw [List.concat_eq_append] at heq hlast
      rw [← List.cons_append, ← List.append_assoc] at heq
      obtain ⟨rfl, hfinal⟩ := List.append_inj' heq rfl
      obtain rfl : last = final := by simpa using hfinal
      exact ⟨fun h => hlast last (by simp) h.symm,
        before, front, rfl, fun p hp => hlast p (List.mem_append_left _ hp)⟩
  · rintro (rfl | ⟨hne, before, after, rfl, hlast⟩)
    · exact ⟨pairs, [], rfl, by simp⟩
    · refine ⟨before, after ++ [last], by simp, fun p hp => ?_⟩
      rcases List.mem_append.mp hp with hp | hp
      · exact hlast p hp
      · obtain rfl : p = last := by simpa using hp
        exact hne.symm

theorem lastUnder_cons {first pair : ArrayKey × α} {rest : List (ArrayKey × α)} :
    LastUnder (first :: rest) pair ↔
      LastUnder rest pair ∨ pair = first ∧ ∀ p ∈ rest, p.1 ≠ first.1 := by
  constructor
  · rintro ⟨before, after, heq, hafter⟩
    cases before with
    | nil =>
      obtain ⟨rfl, rfl⟩ := List.cons.inj heq
      exact Or.inr ⟨rfl, hafter⟩
    | cons _ before =>
      obtain ⟨rfl, rfl⟩ := List.cons.inj heq
      exact Or.inl ⟨before, after, rfl, hafter⟩
  · rintro (⟨before, after, rfl, hafter⟩ | ⟨rfl, hafter⟩)
    · exact ⟨first :: before, after, rfl, hafter⟩
    · exact ⟨[], rest, rfl, hafter⟩

/-- Which pairs are left depends on the keys only. -/
theorem LastUnder.of_forall₂ {R : α → β → Prop} {pairs : List (ArrayKey × α)}
    {pairs' : List (ArrayKey × β)}
    (h : List.Forall₂ (fun p p' => p.1 = p'.1 ∧ R p.2 p'.2) pairs pairs') {pair : ArrayKey × α}
    (hlast : LastUnder pairs pair) :
    ∃ pair', LastUnder pairs' pair' ∧ R pair.2 pair'.2 := by
  induction h with
  | nil =>
    obtain ⟨before, after, heq, -⟩ := hlast
    simp at heq
  | @cons first first' rest rest' hfirst hrest ih =>
    rcases lastUnder_cons.mp hlast with hlast | ⟨rfl, hafter⟩
    · obtain ⟨pair', hlast', hpair⟩ := ih hlast
      exact ⟨pair', lastUnder_cons.mpr (Or.inl hlast'), hpair⟩
    · have hkeys : rest.map (·.1) = rest'.map (·.1) := by
        clear ih hlast hafter
        induction hrest with
        | nil => rfl
        | cons hp _ ih => simp [hp.1, ih]
      refine ⟨first', lastUnder_cons.mpr (Or.inr ⟨rfl, fun p' hp' heq => ?_⟩), hfirst.2⟩
      have hmem : first'.1 ∈ rest.map (·.1) := by
        rw [hkeys, ← heq]
        exact List.mem_map_of_mem hp'
      obtain ⟨p, hp, hkey⟩ := List.mem_map.mp hmem
      exact hafter p hp (hkey.trans hfirst.1.symm)

end LastUnder

theorem putEntry_eq (key : ArrayKey) (slot : Slot) (pairs : List (ArrayKey × Slot)) :
    putEntry key slot pairs = put key slot pairs := by
  induction pairs with
  | nil => rfl
  | cons pair rest ih => rw [putEntry, put, ih]

theorem entriesByKey_eq (slots : List Slot) : entriesByKey slots = putAll [] (numbered 0 slots) := by
  simp only [entriesByKey, putEntry_eq]
  rfl

section
variable {α : Type}

theorem mem_put_iff {key : ArrayKey} {a : α} {pairs : List (ArrayKey × α)}
    (h : (pairs.map Prod.fst).Nodup) {pair : ArrayKey × α} :
    pair ∈ put key a pairs ↔ pair = (key, a) ∨ pair.1 ≠ key ∧ pair ∈ pairs := by
  induction pairs with
  | nil => simp [put]
  | cons first rest ih =>
    obtain ⟨k, b⟩ := first
    simp only [List.map_cons, List.nodup_cons] at h
    by_cases hk : k = key
    · subst hk
      have hrest : pair ∈ rest → pair.1 ≠ k := by
        rintro hmem rfl
        exact h.1 (List.mem_map_of_mem hmem)
      rw [put_cons_self, List.mem_cons, List.mem_cons]
      constructor
      · rintro (rfl | hmem)
        · exact Or.inl rfl
        · exact Or.inr ⟨hrest hmem, Or.inr hmem⟩
      · rintro (rfl | ⟨hne, rfl | hmem⟩)
        · exact Or.inl rfl
        · exact absurd rfl hne
        · exact Or.inr hmem
    · rw [put_cons_ne hk, List.mem_cons, List.mem_cons, ih h.2]
      constructor
      · rintro (rfl | rfl | ⟨hne, hmem⟩)
        · exact Or.inr ⟨hk, Or.inl rfl⟩
        · exact Or.inl rfl
        · exact Or.inr ⟨hne, Or.inr hmem⟩
      · rintro (rfl | ⟨hne, rfl | hmem⟩)
        · exact Or.inr (Or.inl rfl)
        · exact Or.inl rfl
        · exact Or.inr (Or.inr ⟨hne, hmem⟩)

/-- Putting in pairs one behind the other leaves those whose key does not come again. -/
theorem mem_putAll {pairs : List (ArrayKey × α)} {pair : ArrayKey × α} :
    pair ∈ putAll [] pairs ↔ LastUnder pairs pair := by
  induction pairs using List.reverseRecOn with
  | nil => simp [putAll, LastUnder]
  | append_singleton pairs last ih =>
    rw [putAll_concat, lastUnder_concat, ← ih]
    exact mem_put_iff (putAll_nodup pairs)

end

/-- An entry is left if its key does not come again. -/
theorem mem_entriesByKey {slots : List Slot} {pair : ArrayKey × Slot} :
    pair ∈ entriesByKey slots ↔ LastUnder (numbered 0 slots) pair := by
  rw [entriesByKey_eq, mem_putAll]

/-! ## Texts of arrays -/

theorem mapM_isSome_iff {α β : Type} {f : α → Option β} {l : List α} :
    (l.mapM f).isSome ↔ ∀ x ∈ l, (f x).isSome := by
  induction l with
  | nil => simp
  | cons x l ih =>
    cases hx : f x <;> cases hl : l.mapM f <;> simp_all

/-- An array has a text if the entries that are left have one. -/
theorem arrayText?_isSome_iff {indent : Nat} {slots : List Slot} :
    (arrayText? indent slots).isSome ↔
      ∀ pair, LastUnder (numbered 0 slots) pair → pair.2.text.isSome := by
  simp [arrayText?, mapM_isSome_iff, entryText?, ← mem_entriesByKey]

/-- A slot that has the text of another one, if that has a text. -/
structure Slot.Extends (s s' : Slot) : Prop where
  key : s.key = s'.key
  isArray : s.isArray = s'.isArray
  text : ∀ t, s.text = some t → s'.text = some t

/-- The same for slots under keys. -/
def PairExtends (p p' : ArrayKey × Slot) : Prop := p.1 = p'.1 ∧ p.2.Extends p'.2

theorem numbered_extends {slots slots' : List Slot} (h : List.Forall₂ Slot.Extends slots slots')
    (next : Int64) : List.Forall₂ PairExtends (numbered next slots) (numbered next slots') := by
  induction h generalizing next with
  | nil => exact .nil
  | cons hslot _ ih =>
    simp only [numbered]
    rw [hslot.key]
    exact .cons ⟨rfl, hslot⟩ (ih _)

theorem putEntry_extends {p p' : ArrayKey × Slot} (hp : PairExtends p p')
    {pairs pairs' : List (ArrayKey × Slot)} (h : List.Forall₂ PairExtends pairs pairs') :
    List.Forall₂ PairExtends (putEntry p.1 p.2 pairs) (putEntry p'.1 p'.2 pairs') := by
  obtain ⟨key, slot⟩ := p
  obtain ⟨key', slot'⟩ := p'
  obtain ⟨rfl, hslot⟩ : key = key' ∧ slot.Extends slot' := hp
  induction h with
  | nil => exact .cons ⟨rfl, hslot⟩ .nil
  | @cons q q' _ _ hq hrest ih =>
    obtain ⟨k, s⟩ := q
    obtain ⟨k', s'⟩ := q'
    obtain ⟨rfl, hs⟩ : k = k' ∧ s.Extends s' := hq
    simp only [putEntry]
    split
    · exact .cons ⟨rfl, hslot⟩ hrest
    · exact .cons ⟨rfl, hs⟩ ih

theorem foldl_putEntry_extends {pairs pairs' : List (ArrayKey × Slot)}
    (h : List.Forall₂ PairExtends pairs pairs') :
    ∀ {left left' : List (ArrayKey × Slot)}, List.Forall₂ PairExtends left left' →
    List.Forall₂ PairExtends
      (pairs.foldl (fun left (key, slot) => putEntry key slot left) left)
      (pairs'.foldl (fun left (key, slot) => putEntry key slot left) left') := by
  induction h with
  | nil => exact id
  | cons hp _ ih =>
    intro left left' hleft
    exact ih (putEntry_extends hp hleft)

theorem entryText?_extends {pad : String} {p p' : ArrayKey × Slot} (h : PairExtends p p') {t : String}
    (ht : entryText? pad p = some t) : entryText? pad p' = some t := by
  unfold entryText? at ht ⊢
  obtain ⟨value, hvalue, rfl⟩ := Option.map_eq_some_iff.mp ht
  rw [h.2.text value hvalue, h.1, h.2.isArray]
  rfl

theorem mapM_eq_some_of_forall₂ {α β : Type} {f : α → Option β} {l l' : List α} {r : List β}
    (h : List.Forall₂ (fun x x' => ∀ y, f x = some y → f x' = some y) l l') (hr : l.mapM f = some r) :
    l'.mapM f = some r := by
  induction h generalizing r with
  | nil => exact hr
  | cons hx _ ih =>
    rw [List.mapM_cons] at hr ⊢
    obtain ⟨y, hy, hrest⟩ := Option.bind_eq_some_iff.mp hr
    obtain ⟨ys, hys, hr⟩ := Option.bind_eq_some_iff.mp hrest
    exact Option.bind_eq_some_iff.mpr
      ⟨y, hx y hy, Option.bind_eq_some_iff.mpr ⟨ys, ih hys, hr⟩⟩

/-- More texts of entries do not change the text of an array. -/
theorem arrayText?_extends {slots slots' : List Slot} (h : List.Forall₂ Slot.Extends slots slots')
    {indent : Nat} {t : String} (ht : arrayText? indent slots = some t) :
    arrayText? indent slots' = some t := by
  unfold arrayText? at ht ⊢
  dsimp only at ht ⊢
  obtain ⟨lines, hlines, rfl⟩ := Option.map_eq_some_iff.mp ht
  have hentries : List.Forall₂ PairExtends (entriesByKey slots) (entriesByKey slots') :=
    foldl_putEntry_extends (numbered_extends h 0) .nil
  rw [mapM_eq_some_of_forall₂ (hentries.imp fun p p' hp t => entryText?_extends hp) hlines]
  rfl

end Export

end FacadeStubs
