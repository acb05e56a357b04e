import FacadeStubs.Proofs.Decimal.Digits
import FacadeStubs.Proofs.Export.Meaning
import FacadeStubs.Proofs.Export.Termination

/-!
# The numbers of array entries

The entries of an array are numbered when it is written, by the keys that are known then. The number
that an entry without a key has in the value of the array follows all integer keys, known or not.

Results:
* `toInt_nextAfter`: how the number of the next entry grows.
* `Counts.automatic`: a number that is above all keys in front of it is the one in the value.
* `Marked.apart_of_known`: keys that are all known are numbered and told apart as they are.
-/
namespace FacadeStubs.Export

section
variable {index : ClassIndex} {given : String → String → Key} {level : Level}

/-! ## Numbers -/

theorem toInt_successor (i : Int64) : (successor i).toInt = min (i.toInt + 1) Int64.maxValue.toInt := by
  have hmax : Int64.maxValue.toInt = 9223372036854775807 := rfl
  unfold successor
  split
  · rename_i h
    rw [beq_iff_eq.1 h, hmax]
    rfl
  · rename_i h
    have hne : i.toInt ≠ 9223372036854775807 := fun heq =>
      h (beq_iff_eq.2 (Int64.toInt_inj.1 (heq.trans hmax.symm)))
    have hlow := i.le_toInt
    have hhigh := i.toInt_lt
    have hone : (1 : Int64).toInt = 1 := rfl
    rw [Int64.toInt_add, hone, hmax, Int.bmod_eq_of_le (by omega) (by omega)]
    omega

/-- The number of the next entry does not fall, and follows a key that is one. -/
theorem toInt_nextAfter (next : Int64) (k : ArrayKey) :
    next.toInt ≤ (nextAfter next k).toInt ∧
      ((∃ i, k = .int i ∧ (nextAfter next k).toInt ≤ max next.toInt (i.toInt + 1)) ∨
        (nextAfter next k).toInt = next.toInt) := by
  cases k with
  | int i =>
    rw [nextAfter]
    split
    · rename_i h
      have hle := Int64.le_iff_toInt_le.1 h
      have hhigh := i.toInt_lt
      have hmax : Int64.maxValue.toInt = 9223372036854775807 := rfl
      rw [toInt_successor, hmax]
      exact ⟨by omega, .inl ⟨i, rfl, by omega⟩⟩
    · exact ⟨Int.le_refl _, .inr rfl⟩
  | str s => exact ⟨Int.le_refl _, .inr rfl⟩
  | verbatim s => exact ⟨Int.le_refl _, .inr rfl⟩

/-! ## Keys as they are written and as they are -/

/-- A key of an entry: as it is written, and as it is. -/
structure Mark where
  written : ArrayKey
  actual : Key
  /-- Whether the key is a number that the entry was given. -/
  automatic : Bool

/-- The keys of entries. Numbers are given as they are written. -/
inductive Marked (index : ClassIndex) (given : String → String → Key) (level : Level) :
    Int64 → List ArrayEntry → List Mark → Prop
  | nil (next : Int64) : Marked index given level next [] []
  | item {next : Int64} {v : Literal} {rest : List ArrayEntry} {marks : List Mark} :
      Marked index given level (nextAfter next (.int next)) rest marks →
      Marked index given level next (.item v :: rest) (⟨.int next, .int next, true⟩ :: marks)
  | pair {next : Int64} {k v : Literal} {rest : List ArrayEntry} {x : ArrayKey} {s : Scalar}
      {marks : List Mark} : keyOf? level k = some x → Means index given k (.scalar s) →
      Marked index given level (nextAfter next x) rest marks →
      Marked index given level next (.pair k v :: rest) (⟨x, s.key, false⟩ :: marks)

/-- A number that was given is above the number in front of it, whether that was known or not. -/
def Mark.Below (p q : Mark) : Prop :=
  q.automatic = true → ∀ i j, p.actual = .int i → q.actual = .int j → i.toInt < j.toInt

/-- Keys that were told apart, and numbered, as they are. -/
structure Apart (marks : List Mark) : Prop where
  numbers : marks.Pairwise Mark.Below
  /-- Between two entries that were taken for one, no entry has their key and was taken for
  another. -/
  repeats : ∀ p q r, [p, q, r].Sublist marks → p.written = r.written → q.actual = p.actual →
    q.written = p.written
  least : ∀ p ∈ marks, p.written ≠ .int Int64.minValue

/-- Keys that are all written in different ways have no repetitions. -/
theorem Apart.of_distinct {marks : List Mark} (hnumbers : marks.Pairwise Mark.Below)
    (hdistinct : (marks.map Mark.written).Nodup) (hleast : ∀ p ∈ marks, p.written ≠ .int Int64.minValue) :
    Apart marks := by
  refine ⟨hnumbers, fun p q r hsub hwritten _ => ?_, hleast⟩
  have hpair : [p, r].Sublist marks := ((List.Sublist.refl [r]).cons q).cons_cons p |>.trans hsub
  have hne := List.pairwise_iff_forall_sublist.1 hdistinct (hpair.map Mark.written)
  exact absurd hwritten hne

theorem Marked.unique {next : Int64} {entries : List ArrayEntry} {marks marks' : List Mark} :
    Marked index given level next entries marks → Marked index given level next entries marks' →
      marks = marks'
  | .nil _, .nil _ => rfl
  | .item h, .item h' => by rw [h.unique h']
  | .pair hx hs h, .pair hx' hs' h' => by
    cases hx.symm.trans hx'
    cases hs.unique hs'
    rw [h.unique h']

/-! ## Known keys -/

/-- A key that is written as what it is. There is a number behind it, and digits of it without a sign. -/
def Mark.Known (p : Mark) : Prop :=
  match p.written with
  | .int i => p.actual = .int i ∧ i ≠ Int64.minValue ∧ i ≠ Int64.maxValue
  | .str s => p.actual = .str s
  | .verbatim _ => False

instance : (p : Mark) → Decidable p.Known
  | ⟨.int i, k, _⟩ =>
    inferInstanceAs (Decidable (k = .int i ∧ i ≠ Int64.minValue ∧ i ≠ Int64.maxValue))
  | ⟨.str s, k, _⟩ => inferInstanceAs (Decidable (k = .str s))
  | ⟨.verbatim _, _, _⟩ => inferInstanceAs (Decidable False)

/-- Numbers that are given are not below the first one. -/
theorem Marked.next_le {next : Int64} {entries : List ArrayEntry} {marks : List Mark}
    (h : Marked index given level next entries marks) {q : Mark} (hq : q ∈ marks)
    (hautomatic : q.automatic = true) {j : Int64} (hj : q.actual = .int j) : next.toInt ≤ j.toInt := by
  induction h with
  | nil _ => cases hq
  | item _ ih =>
    obtain rfl | hq := List.mem_cons.1 hq
    · cases hj
      exact Int.le_refl _
    · exact Int.le_trans (toInt_nextAfter _ _).1 (ih hq)
  | pair _ _ _ ih =>
    obtain rfl | hq := List.mem_cons.1 hq
    · cases hautomatic
    · exact Int.le_trans (toInt_nextAfter _ _).1 (ih hq)

theorem Mark.Known.written_int {p : Mark} (h : p.Known) {i : Int64} (hi : p.actual = .int i) :
    p.written = .int i ∧ i ≠ Int64.maxValue := by
  obtain ⟨written, actual, automatic⟩ := p
  cases written with
  | int j =>
    obtain ⟨rfl, -, hmax⟩ : actual = .int j ∧ j ≠ Int64.minValue ∧ j ≠ Int64.maxValue := h
    cases hi
    exact ⟨rfl, hmax⟩
  | str s =>
    obtain rfl : actual = .str s := h
    cases hi
  | verbatim s => cases h

theorem Mark.Known.written_eq {p q : Mark} (hp : p.Known) (hq : q.Known) (h : q.actual = p.actual) :
    q.written = p.written := by
  obtain ⟨written, actual, automatic⟩ := p
  cases written with
  | int i =>
    obtain ⟨rfl, -⟩ : actual = .int i ∧ i ≠ Int64.minValue ∧ i ≠ Int64.maxValue := hp
    exact (hq.written_int h).1
  | str s =>
    obtain rfl : actual = .str s := hp
    obtain ⟨written, actual, automatic⟩ := q
    obtain rfl : actual = .str s := h
    cases written with
    | int j => cases hq.1
    | str t => cases hq; rfl
    | verbatim t => cases hq
  | verbatim s => cases hp

theorem lt_nextAfter (next : Int64) {i : Int64} (hi : i ≠ Int64.maxValue) :
    i.toInt < (nextAfter next (.int i)).toInt := by
  have hmax : Int64.maxValue.toInt = 9223372036854775807 := rfl
  have hne : i.toInt ≠ 9223372036854775807 := fun h => hi (Int64.toInt_inj.1 (h.trans hmax.symm))
  have hhigh := i.toInt_lt
  rw [nextAfter]
  split
  · rw [toInt_successor, hmax]
    omega
  · rename_i h
    exact Int64.lt_iff_toInt_lt.1 (Int64.not_le.1 h)

/-- Keys that are all known are numbered and told apart as they are. -/
theorem Marked.apart_of_known {next : Int64} {entries : List ArrayEntry} {marks : List Mark}
    (h : Marked index given level next entries marks) (hknown : ∀ p ∈ marks, p.Known) : Apart marks where
  numbers := by
    have hbelow : ∀ {next rest marks} {p : Mark}, p.Known →
        Marked index given level (nextAfter next p.written) rest marks → ∀ q ∈ marks, p.Below q := by
      intro next rest marks p hp hrest q hq hautomatic i j hi hj
      obtain ⟨hwritten, hmax⟩ := hp.written_int hi
      rw [hwritten] at hrest
      exact Int.lt_of_lt_of_le (lt_nextAfter next hmax) (hrest.next_le hq hautomatic hj)
    induction h with
    | nil _ => exact .nil
    | item hrest ih =>
      rw [List.forall_mem_cons] at hknown
      exact .cons (hbelow hknown.1 hrest) (ih hknown.2)
    | pair _ _ hrest ih =>
      rw [List.forall_mem_cons] at hknown
      exact .cons (hbelow hknown.1 hrest) (ih hknown.2)
  repeats := fun p q r hsub _ hactual =>
    (hknown p (hsub.subset (by simp))).written_eq (hknown q (hsub.subset (by simp))) hactual
  least := by
    intro p hp hleast
    have hp' := hknown p hp
    rw [Mark.Known, hleast] at hp'
    exact hp'.2.1 rfl

/-! ## Numbers in the value of an array -/

/-- The number that an entry is written with is not above the one it has, which is above no number that
is above all keys. -/
structure Counts (next : Int64) (f : Filling) (seen : List Mark) : Prop where
  low : next.toInt ≤ f.next
  high : ∀ m : Int, 0 ≤ m → (∀ p ∈ seen, ∀ i, p.actual = .int i → i.toInt < m) → f.next ≤ m
  nonneg : 0 ≤ next.toInt

theorem Counts.start : Counts 0 {} [] := ⟨Int.le_refl _, fun _ h _ => h, Int.le_refl _⟩

theorem Counts.set {next : Int64} {f : Filling} {seen : List Mark} (h : Counts next f seen) {p : Mark}
    (hp : ∀ i, p.written = .int i → p.actual = .int i) (x : Value) :
    Counts (nextAfter next p.written) (f.set p.actual x) (seen ++ [p]) := by
  obtain ⟨hgrows, hfollows⟩ := toInt_nextAfter next p.written
  have hbehind : ∀ k, f.next ≤ Filling.behind f.next k := by
    intro k
    cases k with
    | int i => exact Int.le_max_left _ _
    | str s => exact Int.le_refl _
  refine ⟨?_, fun m hm hseen => ?_, Int.le_trans h.nonneg hgrows⟩
  · obtain ⟨i, hi, hle⟩ | heq := hfollows
    · refine Int.le_trans hle ?_
      have hlow := h.low
      rw [hp i hi]
      show _ ≤ max f.next (i.toInt + 1)
      omega
    · rw [heq]
      exact Int.le_trans h.low (hbehind _)
  · have hnext := h.high m hm fun q hq => hseen q (List.mem_append_left _ hq)
    cases hactual : p.actual with
    | int i =>
      have hi := hseen p (List.mem_append_right _ List.mem_cons_self) i hactual
      show max f.next (i.toInt + 1) ≤ m
      omega
    | str s => exact hnext

/-- Where a number is above all keys it is the one that the entry has. -/
theorem Counts.automatic {next : Int64} {f : Filling} {seen : List Mark} {k : Key}
    (h : Counts next f seen) (hseen : ∀ p ∈ seen, ∀ i, p.actual = .int i → i.toInt < next.toInt)
    (hk : f.automatic? = some k) : k = .int next := by
  have hnext : f.next = next.toInt := Int.le_antisymm (h.high _ h.nonneg hseen) h.low
  rw [Filling.automatic?, hnext, Decimal.int64?_toInt] at hk
  exact (Option.some.inj hk).symm

end

end FacadeStubs.Export
