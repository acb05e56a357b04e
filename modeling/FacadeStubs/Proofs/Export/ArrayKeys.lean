import FacadeStubs.Proofs.Export.Numbering
import Mathlib.Logic.Relation

/-!
# The keys of an exported array

An array is exported as pairs of keys and values. The keys are those of the entries, an entry without one
being numbered, and no key stands there twice.

Results:
* `canonicalInt?_eq_some_iff`: the strings that are taken for integers are the decimal texts of these.
* `Scalar.key_eq_iff`: two values are the same key if they are alike.
* `arrayText_pairs`: the text of an array, pair by pair, whose keys are distinct and numbered as in the
  array it is the text of.
-/
namespace FacadeStubs

namespace Decimal

theorem toList_intText_neg {i : Int} (h : i < 0) :
    (intText i).toList = '-' :: Nat.toDigits 10 i.natAbs := by
  rw [intText, if_pos h, String.toList_append, natText, String.toList_ofList,
    String.toList_ofList]
  rfl

theorem toList_intText_nonneg {i : Int} (h : ¬i < 0) :
    (intText i).toList = Nat.toDigits 10 i.natAbs := by
  rw [intText, if_neg h, natText, String.toList_ofList]

/-- No digits of a number begin with a sign. -/
theorem toDigits_ne_minus (n : Nat) (rest : List Char) : Nat.toDigits 10 n ≠ '-' :: rest := by
  intro h
  have hdigit : '-'.isDigit = true :=
    Nat.isDigit_of_mem_toDigits (b := 10) (by decide) (by decide) (h ▸ List.mem_cons_self)
  cases hdigit

/-- A string is taken for an integer if it is the decimal text of it. -/
theorem canonicalInt?_eq_some_iff {s : String} {i : Int64} :
    canonicalInt? s = some i ↔ s = intText i.toInt := by
  constructor
  · intro h
    exact (beq_iff_eq.1 (Option.filter_eq_some_iff.1 h).2).symm
  · rintro rfl
    refine Option.filter_eq_some_iff.2 ⟨?_, beq_iff_eq.2 rfl⟩
    by_cases h : i.toInt < 0
    · have hvalue : -(i.toInt.natAbs : Int) = i.toInt := by omega
      rw [toList_intText_neg h]
      simp only [readDigits?_toDigits, Option.bind_some, hvalue, int64?_toInt]
    · have hvalue : (i.toInt.natAbs : Int) = i.toInt := by omega
      rw [toList_intText_nonneg h]
      split
      · rename_i rest heq
        exact absurd heq (toDigits_ne_minus _ rest)
      · rw [readInt64?, readDigits?_toDigits, Option.bind_some, hvalue, int64?_toInt]

end Decimal

namespace Export

/-! ## Values as keys -/

/-- Two values that are one key of an array. -/
inductive Scalar.Alike : Scalar → Scalar → Prop
  | decimal (i : Int64) : Alike (.int i) (.str (Decimal.intText i.toInt))
  | no : Alike (.bool false) (.int 0)
  | yes : Alike (.bool true) (.int 1)
  | nothing : Alike .null (.str "")

theorem Scalar.key_decimal (i : Int64) : (Scalar.str (Decimal.intText i.toInt)).key = .int i := by
  rw [Scalar.key, Decimal.canonicalInt?_eq_some_iff.2 rfl]

theorem canonicalInt?_empty : Decimal.canonicalInt? "" = none := by decide +kernel

theorem Scalar.Alike.key_eq {a b : Scalar} (h : a.Alike b) : a.key = b.key := by
  cases h with
  | decimal i => exact (Scalar.key_decimal i).symm
  | no => rfl
  | yes => rfl
  | nothing => rw [Scalar.key, Scalar.key, canonicalInt?_empty]

theorem Scalar.alike_key (a : Scalar) : Relation.EqvGen Alike a a.key.scalar := by
  cases a with
  | null => exact .rel _ _ .nothing
  | bool b =>
    cases b with
    | false => exact .rel _ _ .no
    | true => exact .rel _ _ .yes
  | int i => exact .refl _
  | str s =>
    rw [Scalar.key]
    split
    · rename_i i h
      rw [Decimal.canonicalInt?_eq_some_iff.1 h]
      exact .symm _ _ (.rel _ _ (.decimal i))
    · exact .refl _

/-- Values are the same key if a chain of alike ones joins them. -/
theorem Scalar.key_eq_iff {a b : Scalar} : a.key = b.key ↔ Relation.EqvGen Alike a b := by
  constructor
  · intro h
    have hb := b.alike_key
    rw [← h] at hb
    exact a.alike_key.trans _ _ _ (hb.symm _ _)
  · intro h
    induction h with
    | rel _ _ h => exact h.key_eq
    | refl _ => rfl
    | symm _ _ _ ih => exact ih.symm
    | trans _ _ _ _ _ ih ih' => exact ih.trans ih'

/-- A key that a value is, as one that is written. -/
def Key.written : Key → ArrayKey
  | .int i => .int i
  | .str s => .str s

theorem Key.written_inj {k k' : Key} : k.written = k'.written ↔ k = k' := by
  constructor
  · intro h
    cases k <;> cases k' <;> cases h <;> rfl
  · exact congrArg _

theorem keyOf?_literal (level : Level) (a : Scalar) : keyOf? level a.literal = some a.key.written := by
  cases a with
  | str s =>
    show scalarKey? (.str s) = _
    rw [scalarKey?, Scalar.key]
    cases Decimal.canonicalInt? s <;> rfl
  | _ => rfl

/-! ## Numbers behind keys -/

/-- The integers among keys. -/
def integerKeys (keys : List ArrayKey) : List Int :=
  keys.filterMap fun
    | .int i => some i.toInt
    | _ => none

/-- The number that follows keys: the one behind the largest integer, and no negative one. -/
def following (keys : List ArrayKey) : Int :=
  match (integerKeys keys).max? with
  | some m => max 0 (1 + m)
  | none => 0

theorem following_nonneg (keys : List ArrayKey) : 0 ≤ following keys := by
  unfold following
  split
  · exact Int.le_max_left _ _
  · exact Int.le_refl _

theorem lt_following {keys : List ArrayKey} {i : Int64} (h : .int i ∈ keys) :
    i.toInt < following keys := by
  have hmem : i.toInt ∈ integerKeys keys := List.mem_filterMap.2 ⟨_, h, rfl⟩
  unfold following
  split
  · rename_i m hm
    have hle : i.toInt ≤ m := (List.max?_eq_some_iff.1 hm).2 _ hmem
    omega
  · rename_i hm
    rw [List.max?_eq_none_iff.1 hm] at hmem
    cases hmem

theorem following_le {keys : List ArrayKey} {m : Int} (h0 : 0 ≤ m)
    (h : ∀ i, .int i ∈ keys → i.toInt < m) : following keys ≤ m := by
  unfold following
  split
  · rename_i l hl
    obtain ⟨key, hkey, heq⟩ := List.mem_filterMap.1 (List.max?_eq_some_iff.1 hl).1
    cases key with
    | int i =>
      have hlt := h i hkey
      obtain rfl := Option.some.inj heq
      omega
    | str s => cases heq
    | verbatim s => cases heq
  · exact h0

theorem following_concat (keys : List ArrayKey) (k : ArrayKey) :
    following (keys ++ [k]) =
      match k with
      | .int i => max (following keys) (i.toInt + 1)
      | _ => following keys := by
  have hgrows : following keys ≤ following (keys ++ [k]) :=
    following_le (following_nonneg _) fun i hi => lt_following (List.mem_append_left _ hi)
  have hnonneg := following_nonneg keys
  cases k with
  | int i =>
    have hlast : i.toInt < following (keys ++ [.int i]) :=
      lt_following (List.mem_append_right _ List.mem_cons_self)
    have hle : following (keys ++ [.int i]) ≤ max (following keys) (i.toInt + 1) := by
      refine following_le (by omega) fun j hj => ?_
      obtain hj | hj := List.mem_append.1 hj
      · have hlt := lt_following hj
        omega
      · cases List.mem_singleton.1 hj
        omega
    show following (keys ++ [.int i]) = max (following keys) (i.toInt + 1)
    omega
  | str s =>
    refine Int.le_antisymm (following_le hnonneg fun j hj => ?_) hgrows
    exact lt_following ((List.mem_append.1 hj).resolve_right (by simp))
  | verbatim s =>
    refine Int.le_antisymm (following_le hnonneg fun j hj => ?_) hgrows
    exact lt_following ((List.mem_append.1 hj).resolve_right (by simp))

/-- The next number is the one that follows all keys so far, if none of them is the last integer. -/
theorem nextAfter_following {next : Int64} {keys : List ArrayKey} (hnext : next.toInt = following keys)
    {k : ArrayKey} (hk : k ≠ .int Int64.maxValue) :
    (nextAfter next k).toInt = following (keys ++ [k]) := by
  rw [following_concat, ← hnext]
  cases k with
  | int i =>
    have hlt := lt_nextAfter next (i := i) fun h => hk (h ▸ rfl)
    obtain ⟨hle, ⟨j, hj, hbound⟩ | heq⟩ := toInt_nextAfter next (.int i)
    · cases hj
      show _ = max next.toInt (i.toInt + 1)
      omega
    · show _ = max next.toInt (i.toInt + 1)
      omega
  | str s => rfl
  | verbatim s => rfl

/-! ## Keys of entries -/

/-- The keys that entries are written under. -/
def keysFrom (next : Int64) (slots : List Slot) : List ArrayKey := (numbered next slots).map Prod.fst

theorem keysFrom_cons (next : Int64) (slot : Slot) (slots : List Slot) :
    keysFrom next (slot :: slots) =
      slot.key.getD (.int next) :: keysFrom (nextAfter next (slot.key.getD (.int next))) slots := rfl

theorem keysFrom_explicit {slots : List Slot} {n : Nat} {slot : Slot} (hslot : slots[n]? = some slot)
    {k : ArrayKey} (hk : slot.key = some k) (next : Int64) : (keysFrom next slots)[n]? = some k := by
  induction slots generalizing n next with
  | nil => cases hslot
  | cons first slots ih =>
    rw [keysFrom_cons]
    cases n with
    | zero =>
      obtain rfl := Option.some.inj hslot
      rw [hk]
      rfl
    | succ n => exact ih hslot _

/-- An entry without a key is written under the number that follows the keys in front of it. -/
theorem keysFrom_automatic {slots : List Slot} {n : Nat} {slot : Slot} (hslot : slots[n]? = some slot)
    (hnone : slot.key = none) {next : Int64} {front : List ArrayKey}
    (hnext : next.toInt = following front) (hlast : .int Int64.maxValue ∉ keysFrom next slots) :
    ∃ i, (keysFrom next slots)[n]? = some (.int i) ∧
      i.toInt = following (front ++ (keysFrom next slots).take n) := by
  induction slots generalizing n next front with
  | nil => cases hslot
  | cons first slots ih =>
    rw [keysFrom_cons] at hlast ⊢
    rw [List.mem_cons, not_or] at hlast
    cases n with
    | zero =>
      obtain rfl := Option.some.inj hslot
      rw [hnone]
      exact ⟨next, rfl, by rw [List.take_zero, List.append_nil, hnext]⟩
    | succ n =>
      obtain ⟨i, hi, hfollows⟩ := ih hslot (nextAfter_following hnext (Ne.symm hlast.1)) hlast.2
      refine ⟨i, hi, ?_⟩
      rwa [List.append_assoc, List.singleton_append] at hfollows

theorem length_keysFrom (next : Int64) (slots : List Slot) :
    (keysFrom next slots).length = slots.length := by
  induction slots generalizing next with
  | nil => rfl
  | cons slot slots ih => rw [keysFrom_cons, List.length_cons, ih, List.length_cons]

/-! ## Pairs that are written -/

/-- An entry without its key. -/
def Slot.unkeyed (slot : Slot) : Slot := { slot with key := none }

/-- A value as it is written in an entry. -/
def valueSlot (level : Level) (indent : Nat) (v : Literal) : Slot :=
  ⟨none, isArrayLiteral v, value? level indent v⟩

/-- Pairs of keys and values over several lines, `indent` blanks from the left. -/
def pairsText? (level : Level) (indent : Nat) (pairs : List (ArrayKey × Literal)) : Option String :=
  let pad := String.ofList (List.replicate indent ' ')
  (pairs.mapM fun pair => entryText? pad (pair.1, valueSlot level (indent + 2) pair.2)).map
    fun lines => "array (\n" ++ joined "" lines ++ pad ++ ")"

/-- A key as it stands in an array: an integer in decimal digits, a string in quotes, source text as it
is. -/
def keyText : ArrayKey → String
  | .int i =>
    (if i.toInt < 0 then "-" else "") ++ String.ofList (Nat.toDigits 10 i.toInt.natAbs)
  | .str s => stringText s
  | .verbatim source => source

theorem ArrayKey.text_eq (k : ArrayKey) : k.text = keyText k := by
  cases k with
  | int i =>
    show Decimal.intText i.toInt = _
    rw [Decimal.intText, keyText]
    split
    · rfl
    · exact String.empty_append.symm
  | str s => rfl
  | verbatim s => rfl

/-- The lines of a pair whose value has a text. A value that is an array starts on a line of its own. -/
def pairLines (indent : Nat) (pair : ArrayKey × Literal) (text : String) : String :=
  let pad := String.ofList (List.replicate indent ' ') ++ "  "
  pad ++ keyText pair.1 ++ " => " ++ (if isArrayLiteral pair.2 then "\n" ++ pad else "") ++ text ++ ",\n"

/-- A text is that of pairs: one pair after the other between the brackets, each with the text of its
value. -/
def IsTextOf (level : Level) (indent : Nat) (pairs : List (ArrayKey × Literal)) (text : String) : Prop :=
  ∃ texts, List.Forall₂ (fun pair t => value? level (indent + 2) pair.2 = some t) pairs texts ∧
    text = "array (\n" ++ joined "" (List.zipWith (pairLines indent) pairs texts) ++
      String.ofList (List.replicate indent ' ') ++ ")"

theorem entryText?_value (level : Level) (indent : Nat) (pair : ArrayKey × Literal) :
    entryText? (String.ofList (List.replicate indent ' '))
        (pair.1, valueSlot level (indent + 2) pair.2) =
      (value? level (indent + 2) pair.2).map (pairLines indent pair) := by
  unfold entryText? valueSlot
  refine congrArg (fun line => Option.map line _) (funext fun t => ?_)
  unfold pairLines
  rw [ArrayKey.text_eq]
  dsimp only
  split
  · simp only [String.append_assoc]
    rfl
  · rw [String.append_empty]

/-- What is made of elements one by one and then joined with them. -/
theorem mapM_map_eq_some_iff {α β γ : Type} {f : α → Option β} {g : α → β → γ} {l : List α} {r : List γ} :
    (l.mapM fun x => (f x).map (g x)) = some r ↔
      ∃ ys, List.Forall₂ (fun x y => f x = some y) l ys ∧ r = List.zipWith g l ys := by
  induction l generalizing r with
  | nil =>
    simp only [List.mapM_nil, List.forall₂_nil_left_iff, exists_eq_left, List.zipWith_nil_left]
    exact Option.some_inj.trans eq_comm
  | cons x l ih =>
    simp only [List.mapM_cons, Option.bind_eq_bind, Option.bind_eq_some_iff, ih, Option.map_eq_some_iff]
    constructor
    · rintro ⟨_, ⟨y, hy, rfl⟩, _, ⟨ys, hys, rfl⟩, hr⟩
      cases hr
      exact ⟨_, .cons hy hys, rfl⟩
    · rintro ⟨_, _ | ⟨hy, hys⟩, rfl⟩
      exact ⟨_, ⟨_, hy, rfl⟩, _, ⟨_, hys, rfl⟩, rfl⟩

/-- Pairs are written one after the other. -/
theorem pairsText?_eq_some_iff {level : Level} {indent : Nat} {pairs : List (ArrayKey × Literal)}
    {text : String} : pairsText? level indent pairs = some text ↔ IsTextOf level indent pairs text := by
  unfold pairsText? IsTextOf
  simp only [entryText?_value, Option.map_eq_some_iff, mapM_map_eq_some_iff]
  constructor
  · rintro ⟨_, ⟨texts, htexts, rfl⟩, rfl⟩
    exact ⟨texts, htexts, rfl⟩
  · rintro ⟨texts, htexts, rfl⟩
    exact ⟨_, ⟨texts, htexts, rfl⟩, rfl⟩

section
variable {level : Level} {indent : Nat} {entries : List ArrayEntry} {slots : List Slot}

theorem slot?_item {v : Literal} {slot : Slot} (h : slot? level indent (.item v) = some slot) :
    slot.key = none := by
  obtain rfl := Option.some.inj h
  rfl

theorem slot?_value {entry : ArrayEntry} {slot : Slot} (h : slot? level indent entry = some slot) :
    slot.unkeyed = valueSlot level indent entry.value := by
  cases entry with
  | item v =>
    obtain rfl := Option.some.inj h
    rfl
  | pair k v =>
    obtain ⟨key, -, rfl⟩ := Option.map_eq_some_iff.1 h
    rfl

/-- Behind their keys, entries are written as their values. -/
theorem numbered_values (h : slots? level indent entries = some slots) (next : Int64) :
    (numbered next slots).map (Prod.map id Slot.unkeyed) =
      ((keysFrom next slots).zip (entries.map ArrayEntry.value)).map
        (Prod.map id (valueSlot level indent)) := by
  rw [slots?_eq_some_iff] at h
  induction h generalizing next with
  | nil => rfl
  | cons hslot _ ih =>
    rw [numbered, keysFrom_cons, List.map_cons, List.map_cons, List.zip_cons_cons, List.map_cons, ih,
      Prod.map, Prod.map, slot?_value hslot]

/-- An array is written as pairs: the keys of its entries, each with the last value under it. -/
theorem value?_array (h : slots? level (indent + 2) entries = some slots) :
    value? level indent (.array entries) =
      pairsText? level indent (putAll [] ((keysFrom 0 slots).zip (entries.map ArrayEntry.value))) := by
  have hvalues := congrArg (putAll []) (numbered_values h 0)
  rw [← putAll_map, ← putAll_map, ← entriesByKey_eq] at hvalues
  have hlines (pad : String) : (entriesByKey slots).mapM (entryText? pad) =
      ((entriesByKey slots).map (Prod.map id Slot.unkeyed)).mapM
        (entryText? pad) := by
    rw [List.mapM_map]
    rfl
  rw [value?, h]
  show arrayText? indent slots = _
  unfold arrayText? pairsText?
  simp only [hlines, hvalues, List.mapM_map]
  rfl

/-- Entries stand with their values under the keys that they are written under. -/
theorem keyed?_eq (h : slots? level indent entries = some slots) (next : Int64) :
    keyed? level next entries = some ((keysFrom next slots).zip (entries.map ArrayEntry.value)) := by
  induction slots?_eq_some_iff.1 h generalizing next with
  | nil => rfl
  | cons hslot hrest ih =>
    exact keyed?_cons.2 ⟨_, _, entryKey?_of_slot next hslot, ih (slots?_eq_some_iff.2 hrest) _, rfl⟩

/-- A key of an array is the number of an entry, or it is the key of one. -/
theorem mem_keyed? {next : Int64} {pairs : List (ArrayKey × Literal)} {pair : ArrayKey × Literal}
    (h : keyed? level next entries = some pairs) (hpair : pair ∈ pairs) :
    (∃ i, pair.1 = .int i) ∨ ∃ entry ∈ entries, ∃ k, entry.key? = some k ∧ keyOf? level k = some pair.1 := by
  induction entries generalizing next pairs with
  | nil =>
    cases h
    cases hpair
  | cons entry rest ih =>
    obtain ⟨key, others, hkey, hothers, rfl⟩ := keyed?_cons.1 h
    rcases List.mem_cons.1 hpair with rfl | hpair
    · cases entry with
      | item v => exact .inl ⟨next, (Option.some.inj hkey).symm⟩
      | pair k v => exact .inr ⟨_, List.mem_cons_self, k, rfl, hkey⟩
    · refine (ih hothers hpair).imp_right ?_
      rintro ⟨entry', hentry, hk⟩
      exact ⟨entry', List.mem_cons_of_mem _ hentry, hk⟩

/-- The key of an entry is a key of the array. -/
theorem exists_mem_keyed? {next : Int64} {pairs : List (ArrayKey × Literal)} {entry : ArrayEntry}
    {k : Literal} {x : ArrayKey} (h : keyed? level next entries = some pairs) (hentry : entry ∈ entries)
    (hk : entry.key? = some k) (hx : keyOf? level k = some x) : x ∈ pairs.map Prod.fst := by
  induction entries generalizing next pairs with
  | nil => cases hentry
  | cons first rest ih =>
    obtain ⟨key, others, hkey, hothers, rfl⟩ := keyed?_cons.1 h
    rcases List.mem_cons.1 hentry with rfl | hentry
    · cases entry with
      | item v => cases hk
      | pair k' v =>
        cases hk
        obtain rfl := Option.some.inj (hkey.symm.trans hx)
        exact List.mem_cons_self
    · exact List.mem_cons_of_mem _ (ih hothers hentry)

/-- What is known of the pairs that entries are written as. -/
structure PairsOf (level : Level) (entries : List ArrayEntry) (keys : List ArrayKey)
    (pairs : List (ArrayKey × Literal)) : Prop where
  /-- Every entry has a key. -/
  length : keys.length = entries.length
  explicit : ∀ (n : Nat) (k v : Literal), entries[n]? = some (.pair k v) → keyOf? level k = keys[n]?
  /-- An entry without a key is numbered, and takes no place of an earlier one. -/
  automatic : ∀ (n : Nat) (v : Literal), entries[n]? = some (.item v) →
    ∃ i, keys[n]? = some (.int i) ∧ i.toInt = following (keys.take n) ∧ .int i ∉ keys.take n
  distinct : (pairs.map Prod.fst).Nodup
  /-- The keys stand in order of first occurrence. -/
  order : pairs.map Prod.fst = keys.eraseDups
  /-- Under every key stands the value of the last entry that has it. -/
  last : ∀ pair, pair ∈ pairs ↔ LastUnder (keys.zip (entries.map ArrayEntry.value)) pair

theorem exists_slot (h : slots? level indent entries = some slots) {n : Nat} {entry : ArrayEntry}
    (hentry : entries[n]? = some entry) :
    ∃ slot, slots[n]? = some slot ∧ slot? level indent entry = some slot := by
  rw [slots?_eq_some_iff] at h
  induction h generalizing n with
  | nil => cases hentry
  | cons hslot _ ih =>
    cases n with
    | zero =>
      obtain rfl := Option.some.inj hentry
      exact ⟨_, rfl, hslot⟩
    | succ n => exact ih hentry

theorem pairsOf_keys (h : slots? level indent entries = some slots)
    (hlast : .int Int64.maxValue ∉ keysFrom 0 slots) :
    PairsOf level entries (keysFrom 0 slots)
      (putAll [] ((keysFrom 0 slots).zip (entries.map ArrayEntry.value))) := by
  have hlength : (keysFrom 0 slots).length = entries.length := by
    rw [length_keysFrom, ((slots?_eq_some_iff.1 h).length_eq)]
  refine ⟨hlength, fun n k v hentry => ?_, fun n v hentry => ?_, putAll_nodup _, ?_, fun _ => mem_putAll⟩
  · obtain ⟨slot, hslot, hwritten⟩ := exists_slot h hentry
    obtain ⟨key, hkey, rfl⟩ := Option.map_eq_some_iff.1 hwritten
    exact hkey.trans (keysFrom_explicit hslot rfl 0).symm
  · obtain ⟨slot, hslot, hwritten⟩ := exists_slot h hentry
    have hstart : (0 : Int64).toInt = following [] := rfl
    obtain ⟨i, hi, hfollows⟩ := keysFrom_automatic hslot (slot?_item hwritten) hstart hlast
    rw [List.nil_append] at hfollows
    refine ⟨i, hi, hfollows, fun hmem => ?_⟩
    have hlt := lt_following hmem
    omega
  · rw [putAll_keys, List.map_fst_zip (by rw [hlength, List.length_map])]

/-- An array whose integer keys all have one behind them is written as pairs with distinct keys, in order
of first occurrence, each with the value of the last entry that has the key. Its text has the lines of
these pairs and no others, and there is one as soon as all values have theirs. An entry without a key has
the number that follows all keys in front of it. Values are the same key if they are alike. -/
theorem arrayText_pairs (h : slots? level (indent + 2) entries = some slots)
    (hbelow : ∀ i, .int i ∈ keysFrom 0 slots → i < Int64.maxValue) :
    ∃ pairs, (∀ text, value? level indent (.array entries) = some text ↔ IsTextOf level indent pairs text) ∧
      PairsOf level entries (keysFrom 0 slots) pairs ∧
      ∀ a b : Scalar, keyOf? level a.literal = keyOf? level b.literal ↔
        Relation.EqvGen Scalar.Alike a b := by
  have hlast : .int Int64.maxValue ∉ keysFrom 0 slots := fun hmem =>
    Int64.lt_irrefl (hbelow _ hmem)
  refine ⟨_, fun text => ?_, pairsOf_keys h hlast, fun a b => ?_⟩
  · rw [value?_array h, pairsText?_eq_some_iff]
  · rw [keyOf?_literal, keyOf?_literal, Option.some.injEq, Key.written_inj, Scalar.key_eq_iff]

end

/-- An array of every kind of entry: `['a', 5 => 'b', 'c', '7' => true, 'name' => null, true => 'd']`. -/
def mixedEntries : List ArrayEntry :=
  [.item (.str "a"), .pair (.int 5) (.str "b"), .item (.str "c"), .pair (.str "7") (.bool true),
    .pair (.str "name") .null, .pair (.bool true) (.str "d"), .pair (.str "5") (.str "e")]

/-- What the entries are written as. -/
def mixedSlots : List Slot :=
  [⟨none, false, some "'a'"⟩, ⟨some (.int 5), false, some "'b'"⟩, ⟨none, false, some "'c'"⟩,
    ⟨some (.int 7), false, some "true"⟩, ⟨some (.str "name"), false, some "NULL"⟩,
    ⟨some (.int 1), false, some "'d'"⟩, ⟨some (.int 5), false, some "'e'"⟩]

theorem slots?_mixed :
    slots? (levelAt {} (text? {}) maxDepth) 2 mixedEntries = some mixedSlots := by
  rfl

theorem keysFrom_mixed : keysFrom 0 mixedSlots =
    [.int 0, .int 5, .int 6, .int 7, .str "name", .int 1, .int 5] := by
  rfl

/-- The text of the entries. -/
def mixedText : String :=
  "array (\n  0 => 'a',\n  5 => 'e',\n  6 => 'c',\n  7 => true,\n  'name' => NULL,\n  1 => 'd',\n)"

theorem arrayText_pairs_mixed :
    (∀ i, .int i ∈ keysFrom 0 mixedSlots → i < Int64.maxValue) ∧
    ∃ pairs, IsTextOf (levelAt {} (text? {}) maxDepth) 0 pairs mixedText ∧
      PairsOf (levelAt {} (text? {}) maxDepth) mixedEntries
        [.int 0, .int 5, .int 6, .int 7, .str "name", .int 1, .int 5] pairs := by
  have hbelow : ∀ i, .int i ∈ keysFrom 0 mixedSlots → i < Int64.maxValue := by
    rw [keysFrom_mixed]
    intro i hi
    simp only [List.mem_cons, ArrayKey.int.injEq, reduceCtorEq, List.not_mem_nil, or_false,
      false_or] at hi
    obtain rfl | rfl | rfl | rfl | rfl | rfl := hi <;> decide
  refine ⟨hbelow, ?_⟩
  obtain ⟨pairs, htext, hpairs, -⟩ := arrayText_pairs slots?_mixed hbelow
  rw [keysFrom_mixed] at hpairs
  exact ⟨pairs, (htext mixedText).mp (by rfl), hpairs⟩

end Export

end FacadeStubs
