import FacadeStubs.Proofs.Export.Entries
import FacadeStubs.Proofs.Keys

/-!
# Restarts are enough

An array used as a key is exported from the start. `Export.textWithin?` allows a number of such restarts
inside each other and `Export.text?` allows as many as there are arrays. No expression needs more: what
one more restart adds is the text of an array, and each array gets its text once.

* `value?_extends`, `keyOf?_extends`: more restarts do not change a text that is there;
* `textWithin?_stable`: from as many restarts on as there are arrays, no text is added;
* `text?_eq_some_iff`: a text that any number of restarts gives is the text of the expression;
* `text?_eq_value?`: the text is what the expression is written as when its array keys are written by
  the same rule.
-/
namespace FacadeStubs.Export

/-! ## More restarts -/

/-- A level at which all is known that another one knows of the expressions in `P`. -/
structure Level.Extends (P : Literal → Prop) (l l' : Level) : Prop where
  fold : l.fold = l'.fold
  follow : l.follow = l'.follow
  defined : ∀ c n d, l.follow c n = some d → P d
  valueBelow : ∀ indent v t, P v → l.valueBelow indent v = some t → l'.valueBelow indent v = some t
  keyBelow : ∀ k key, P k → l.keyBelow k = some key → l'.keyBelow k = some key
  restart : ∀ entries t, P (.array entries) → l.restart (.array entries) = some t →
    l'.restart (.array entries) = some t

section Extends

variable {P : Literal → Prop} {l l' : Level}

theorem constantText?_extends (h : l.Extends P l') {indent : Nat} {c n t : String}
    (ht : constantText? l indent c n = some t) : constantText? l' indent c n = some t := by
  unfold constantText? at ht ⊢
  rw [← h.follow]
  cases hdef : l.follow c n with
  | none => simpa [hdef] using ht
  | some d =>
    simp only [hdef] at ht ⊢
    exact h.valueBelow indent d t (h.defined c n d hdef) ht

theorem constantKey?_extends (h : l.Extends P l') {c n : String} {key : ArrayKey}
    (hkey : constantKey? l c n = some key) : constantKey? l' c n = some key := by
  unfold constantKey? at hkey ⊢
  rw [← h.follow]
  cases hdef : l.follow c n with
  | none => simpa [hdef] using hkey
  | some d =>
    simp only [hdef] at hkey ⊢
    exact h.keyBelow d key (h.defined c n d hdef) hkey

theorem operandText?_extends (h : l.Extends P l') {v : Literal} {own own' : Option String}
    (hown : ∀ t, own = some t → own' = some t) {t : String} (ht : operandText? l v own = some t) :
    operandText? l' v own' = some t := by
  unfold operandText? at ht ⊢
  rw [← h.fold]
  cases hfold : (l.fold v).bind scalarText? with
  | some text => simpa [hfold] using ht
  | none =>
    simp only [hfold] at ht ⊢
    split at ht
    · obtain ⟨s, hs, rfl⟩ := Option.map_eq_some_iff.mp ht
      simp_all
    · simp_all

/-- As a key an operator is its value, or else its own text. -/
theorem key?_operator {level : Level} {k : Literal} {own : Unit → Option String}
    (h : isOperator k = true) :
    key? level k own = match level.fold k with
      | some folded => scalarKey? folded
      | none => (own ()).map .verbatim := by
  cases k <;> cases h <;> rfl

theorem key?_extends (h : l.Extends P l') {k : Literal} (hk : P k) {own own' : Unit → Option String}
    (hown : ∀ t, own () = some t → own' () = some t) {key : ArrayKey} (hkey : key? l k own = some key) :
    key? l' k own' = some key := by
  have hoperator : isOperator k = true → key? l' k own' = some key := by
    intro hop
    rw [key?_operator hop] at hkey ⊢
    rw [← h.fold]
    cases hfold : l.fold k with
    | some folded => simpa [hfold] using hkey
    | none =>
      simp only [hfold] at hkey ⊢
      obtain ⟨t, ht, rfl⟩ := Option.map_eq_some_iff.mp hkey
      rw [hown t ht]
      rfl
  cases k with
  | classConst c n => exact constantKey?_extends h hkey
  | lateStatic c n => exact constantKey?_extends h hkey
  | binary op a b => exact hoperator rfl
  | unary op a => exact hoperator rfl
  | array entries =>
    obtain ⟨t, ht, rfl⟩ := Option.map_eq_some_iff.mp hkey
    simp [key?, h.restart _ t hk ht]
  | _ => exact hkey

/-- The text of a part stays when more is known. -/
def Keeps (l l' : Level) (w : Literal) : Prop :=
  ∀ indent t, value? l indent w = some t → value? l' indent w = some t

theorem slot?_extends (h : l.Extends P l') {entry : ArrayEntry}
    (hparts : ∀ w ∈ entry.parts, P w ∧ Keeps l l' w) {indent : Nat} {slot : Slot}
    (hslot : slot? l indent entry = some slot) :
    ∃ slot', slot? l' indent entry = some slot' ∧ slot.Extends slot' := by
  cases entry with
  | item v =>
    obtain ⟨-, hv⟩ := hparts v (by simp [ArrayEntry.parts, ArrayEntry.value])
    obtain rfl := Option.some.inj hslot
    exact ⟨_, rfl, rfl, rfl, hv indent⟩
  | pair k v =>
    obtain ⟨hk, hkept⟩ := hparts k (by simp [ArrayEntry.parts, ArrayEntry.key?])
    obtain ⟨-, hv⟩ := hparts v (by simp [ArrayEntry.parts, ArrayEntry.value])
    obtain ⟨key, hkey, rfl⟩ := Option.map_eq_some_iff.mp hslot
    have hkey' : key? l' k (fun _ => value? l' 0 k) = some key := key?_extends h hk (hkept 0) hkey
    exact ⟨⟨some key, isArrayLiteral v, value? l' indent v⟩, by simp [slot?, hkey'], rfl, rfl, hv indent⟩

theorem slots?_extends (h : l.Extends P l') {entries : List ArrayEntry}
    (hparts : ∀ w ∈ entries.flatMap ArrayEntry.parts, P w ∧ Keeps l l' w) {indent : Nat}
    {slots : List Slot} (hslots : slots? l indent entries = some slots) :
    ∃ slots', slots? l' indent entries = some slots' ∧ List.Forall₂ Slot.Extends slots slots' := by
  induction slots?_eq_some_iff.mp hslots with
  | nil => exact ⟨[], rfl, .nil⟩
  | @cons entry slot entries slots hslot hrest ih =>
    simp only [List.flatMap_cons, List.mem_append] at hparts
    obtain ⟨slot', hslot', hextends⟩ := slot?_extends h (fun w hw => hparts w (Or.inl hw)) hslot
    obtain ⟨slots', hslots', hall⟩ := ih (fun w hw => hparts w (Or.inr hw))
      (slots?_eq_some_iff.mpr hrest)
    refine ⟨slot' :: slots', ?_, .cons hextends hall⟩
    exact slots?_eq_some_iff.mpr (.cons hslot' (slots?_eq_some_iff.mp hslots'))

/-- More restarts do not change a text that is there. -/
theorem value?_extends (hparts : ∀ v, P v → ∀ w ∈ v.parts, P w) (h : l.Extends P l') (v : Literal) :
    P v → Keeps l l' v := by
  induction v using Literal.parts_induction with
  | step v ih =>
    intro hv indent t ht
    have hpart : ∀ w ∈ v.parts, P w ∧ Keeps l l' w :=
      fun w hw => ⟨hparts v hv w hw, ih w hw (hparts v hv w hw)⟩
    cases v with
    | classConst c n => exact constantText?_extends h ht
    | lateStatic c n => exact constantText?_extends h ht
    | binary op a b =>
      simp only [value?] at ht ⊢
      rw [← h.fold]
      cases hfold : (l.fold (.binary op a b)).bind scalarText? with
      | some text => simpa [hfold] using ht
      | none =>
        simp only [hfold] at ht ⊢
        split at ht
        · rename_i ta tb ha hb
          rw [operandText?_extends h ((hpart a (by simp [Literal.parts])).2 0) ha,
            operandText?_extends h ((hpart b (by simp [Literal.parts])).2 0) hb]
          exact ht
        · cases ht
    | unary op a =>
      simp only [value?] at ht ⊢
      rw [← h.fold]
      cases hfold : (l.fold (.unary op a)).bind scalarText? with
      | some text => simpa [hfold] using ht
      | none =>
        simp only [hfold] at ht ⊢
        obtain ⟨ta, ha, rfl⟩ := Option.map_eq_some_iff.mp ht
        rw [operandText?_extends h ((hpart a (by simp [Literal.parts])).2 0) ha]
        rfl
    | array entries =>
      simp only [value?] at ht ⊢
      split at ht
      · rename_i slots hslots
        obtain ⟨slots', hslots', hall⟩ := slots?_extends h hpart hslots
        rw [hslots']
        exact arrayText?_extends hall ht
      · cases ht
    | _ => exact ht

theorem keyOf?_extends (hparts : ∀ v, P v → ∀ w ∈ v.parts, P w) (h : l.Extends P l') {k : Literal}
    (hk : P k) {key : ArrayKey} (hkey : keyOf? l k = some key) : keyOf? l' k = some key :=
  key?_extends h hk (value?_extends hparts h k hk 0) hkey

end Extends

/-- What is known at a level grows with what is known of array keys. -/
theorem levelAt_extends {P : Literal → Prop} (hparts : ∀ v, P v → ∀ w ∈ v.parts, P w)
    {index : ClassIndex} (hdefined : ∀ c n d, index.constant? c n = some d → P d)
    {restart restart' : Literal → Option String}
    (h : ∀ entries t, P (.array entries) → restart (.array entries) = some t →
      restart' (.array entries) = some t) (budget : Nat) :
    (levelAt index restart budget).Extends P (levelAt index restart' budget) := by
  induction budget with
  | zero =>
    exact
      { fold := rfl
        follow := rfl
        defined := fun _ _ _ h => by cases h
        valueBelow := fun _ _ _ _ h => by cases h
        keyBelow := fun _ _ _ h => by cases h
        restart := h }
  | succ budget ih =>
    exact
      { fold := rfl
        follow := rfl
        defined := hdefined
        valueBelow := fun indent v t hv ht => value?_extends hparts ih v hv indent t ht
        keyBelow := fun k key hk hkey => keyOf?_extends hparts ih hk hkey
        restart := h }

/-! ## The arrays of an index -/

mutual

/-- The array literals in an expression. -/
def arraysOf : Literal → List Literal
  | .array entries => .array entries :: arraysOfEntries entries
  | .binary _ l r => arraysOf l ++ arraysOf r
  | .unary _ v => arraysOf v
  | _ => []

/-- The array literals in entries. -/
def arraysOfEntries : List ArrayEntry → List Literal
  | [] => []
  | .item v :: rest => arraysOf v ++ arraysOfEntries rest
  | .pair k v :: rest => arraysOf k ++ arraysOf v ++ arraysOfEntries rest

end

mutual

theorem length_arraysOf : ∀ v : Literal, (arraysOf v).length = arrayCount v
  | .array entries => by simp [arraysOf, arrayCount, length_arraysOfEntries entries]
  | .binary _ l r => by simp [arraysOf, arrayCount, length_arraysOf l, length_arraysOf r]
  | .unary _ v => by simp [arraysOf, arrayCount, length_arraysOf v]
  | .null => rfl
  | .bool _ => rfl
  | .int _ => rfl
  | .float _ => rfl
  | .str _ => rfl
  | .expr _ => rfl
  | .classConst _ _ => rfl
  | .lateStatic _ _ => rfl

theorem length_arraysOfEntries : ∀ entries : List ArrayEntry,
    (arraysOfEntries entries).length = arrayCountEntries entries
  | [] => rfl
  | .item v :: rest => by
    simp [arraysOfEntries, arrayCountEntries, length_arraysOf v, length_arraysOfEntries rest]
  | .pair k v :: rest => by
    simp [arraysOfEntries, arrayCountEntries, length_arraysOf k, length_arraysOf v,
      length_arraysOfEntries rest, Nat.add_assoc]

end

theorem arraysOfEntries_eq (entries : List ArrayEntry) :
    arraysOfEntries entries = (entries.flatMap ArrayEntry.parts).flatMap arraysOf := by
  induction entries with
  | nil => rfl
  | cons entry rest ih =>
    cases entry <;> simp [arraysOfEntries, ArrayEntry.parts, ArrayEntry.key?, ArrayEntry.value, ih]

/-- An array in an expression is the expression itself or in a part of it. -/
theorem mem_arraysOf {v a : Literal} :
    a ∈ arraysOf v ↔ (isArrayLiteral v = true ∧ a = v) ∨ ∃ w ∈ v.parts, a ∈ arraysOf w := by
  cases v <;> simp [arraysOf, Literal.parts, isArrayLiteral, arraysOfEntries_eq]

theorem arraysOf_parts {v w : Literal} (h : w ∈ v.parts) : arraysOf w ⊆ arraysOf v :=
  fun _ ha => mem_arraysOf.mpr (Or.inr ⟨w, h, ha⟩)

/-- The arrays in an array of an expression are arrays of the expression. -/
theorem arraysOf_trans (v : Literal) : ∀ a ∈ arraysOf v, arraysOf a ⊆ arraysOf v := by
  induction v using Literal.parts_induction with
  | step v ih =>
    intro a ha
    rcases mem_arraysOf.mp ha with ⟨-, rfl⟩ | ⟨w, hw, ha⟩
    · exact List.Subset.refl _
    · exact List.Subset.trans (ih w hw a ha) (arraysOf_parts hw)

/-- The array literals in the constants of an index. -/
def indexArrays (index : ClassIndex) : List Literal :=
  index.decls.flatMap fun d => d.constants.flatMap fun c => arraysOf c.2

theorem length_indexArrays (index : ClassIndex) : (indexArrays index).length = indexArrayCount index := by
  have hconstants : ∀ (constants : List (String × Literal)) (n : Nat),
      constants.foldr (fun c m => arrayCount c.2 + m) n =
        (constants.flatMap fun c => arraysOf c.2).length + n := by
    intro constants n
    induction constants with
    | nil => simp
    | cons c rest ih => simp [ih, length_arraysOf, Nat.add_assoc]
  unfold indexArrays indexArrayCount
  induction index.decls with
  | nil => rfl
  | cons d rest ih =>
    rw [List.foldr_cons, hconstants, List.flatMap_cons, List.length_append, ih]

theorem arraysOf_constant {index : ClassIndex} {c n : String} {d : Literal}
    (h : index.constant? c n = some d) : arraysOf d ⊆ indexArrays index := by
  obtain ⟨decl, hdecl, constant, hconstant, rfl⟩ := ClassIndex.exists_of_constant? h
  intro a ha
  exact List.mem_flatMap.mpr ⟨decl, hdecl, List.mem_flatMap.mpr ⟨constant, hconstant, ha⟩⟩

/-! ## Enough restarts -/

theorem textWithin?_succ {index : ClassIndex} {n : Nat} {v : Literal} {t : String}
    (h : textWithin? index n v = some t) : textWithin? index (n + 1) v = some t := by
  induction n generalizing v t with
  | zero => cases h
  | succ n ih =>
    have hlevel : (levelAt index (textWithin? index n) maxDepth).Extends (fun _ => True)
        (levelAt index (textWithin? index (n + 1)) maxDepth) :=
      levelAt_extends (fun _ _ _ _ => trivial) (fun _ _ _ _ => trivial) (fun _ _ _ ht => ih ht) maxDepth
    exact value?_extends (fun _ _ _ _ => trivial) hlevel v trivial 0 t h

theorem textWithin?_isSome_succ {index : ClassIndex} {n : Nat} {v : Literal}
    (h : (textWithin? index n v).isSome = true) : (textWithin? index (n + 1) v).isSome = true := by
  obtain ⟨t, ht⟩ := Option.isSome_iff_exists.mp h
  rw [textWithin?_succ ht]
  rfl

theorem textWithin?_mono {index : ClassIndex} {n m : Nat} (hnm : n ≤ m) {v : Literal} {t : String}
    (h : textWithin? index n v = some t) : textWithin? index m v = some t := by
  induction hnm with
  | refl => exact h
  | step _ ih => exact textWithin?_succ ih

/-- Some arrays with all that exporting them may come to. -/
structure Complete (index : ClassIndex) (arrays : List Literal) : Prop where
  constants : indexArrays index ⊆ arrays
  inner : ∀ a ∈ arrays, arraysOf a ⊆ arrays

section Stable

variable {index : ClassIndex} {arrays : List Literal}

/-- An expression whose arrays are among some given ones. -/
def Within (arrays : List Literal) (v : Literal) : Prop := arraysOf v ⊆ arrays

theorem Within.parts {v : Literal} (h : Within arrays v) : ∀ w ∈ v.parts, Within arrays w :=
  fun _ hw => List.Subset.trans (arraysOf_parts hw) h

theorem Within.mem {entries : List ArrayEntry} (h : Within arrays (.array entries)) :
    .array entries ∈ arrays :=
  h (by simp [arraysOf])

/-- If `restart'` knows the texts that `restart` knows of some arrays, it leads to the texts that
`restart` leads to. -/
theorem value?_of_restart (hcomplete : Complete index arrays)
    {restart restart' : Literal → Option String}
    (h : ∀ a ∈ arrays, ∀ t, restart a = some t → restart' a = some t) {v : Literal}
    (hv : Within arrays v) {budget indent : Nat} {t : String}
    (ht : value? (levelAt index restart budget) indent v = some t) :
    value? (levelAt index restart' budget) indent v = some t := by
  have hdefined : ∀ c n d, index.constant? c n = some d → Within arrays d :=
    fun _ _ _ hd => List.Subset.trans (arraysOf_constant hd) hcomplete.constants
  have hlevel := levelAt_extends (fun _ => Within.parts) hdefined
    (fun entries t hentries => h (.array entries) hentries.mem t) budget
  exact value?_extends (fun _ => Within.parts) hlevel v hv indent t ht

/-- The number of arrays that have a text with so many restarts. -/
def textCount (index : ClassIndex) (arrays : List Literal) (n : Nat) : Nat :=
  arrays.countP fun a => (textWithin? index n a).isSome

/-- One restart more gives no further array a text. -/
def Settled (index : ClassIndex) (arrays : List Literal) (n : Nat) : Prop :=
  ∀ a ∈ arrays, ∀ t, textWithin? index (n + 1) a = some t → textWithin? index n a = some t

/-- Of two conditions that hold equally often, the weaker one holds no more often. -/
theorem imp_of_countP_eq {p q : Literal → Bool} (hpq : ∀ a, p a = true → q a = true) :
    ∀ {l : List Literal}, l.countP p = l.countP q → ∀ a ∈ l, q a = true → p a = true
  | [], _, _, ha, _ => by cases ha
  | b :: l, h, a, ha, hq => by
    have hle : l.countP p ≤ l.countP q := List.countP_mono_left fun a _ => hpq a
    rw [List.countP_cons, List.countP_cons] at h
    have hb : q b = true → p b = true := by
      intro hb
      by_contra hp
      rw [if_neg hp, if_pos hb] at h
      omega
    have hrest : l.countP p = l.countP q := by
      cases hp : p b with
      | true => simpa [hp, hpq b hp] using h
      | false => simpa [hp, mt hb (by simp [hp])] using h
    rcases List.mem_cons.mp ha with rfl | ha
    · exact hb hq
    · exact imp_of_countP_eq hpq hrest a ha hq

theorem settled_of_textCount {n : Nat} (h : textCount index arrays n = textCount index arrays (n + 1)) :
    Settled index arrays n := by
  intro a ha t ht
  have hsome := imp_of_countP_eq (fun _ => textWithin?_isSome_succ) h a ha (by rw [ht]; rfl)
  obtain ⟨s, hs⟩ := Option.isSome_iff_exists.mp hsome
  rw [textWithin?_succ hs] at ht
  exact hs.trans ht

theorem Settled.succ (hcomplete : Complete index arrays) {n : Nat} (h : Settled index arrays n) :
    Settled index arrays (n + 1) :=
  fun a ha _ ht => value?_of_restart hcomplete h (hcomplete.inner a ha) ht

theorem Settled.mono (hcomplete : Complete index arrays) {n m : Nat} (hnm : n ≤ m)
    (h : Settled index arrays n) : Settled index arrays m := by
  induction hnm with
  | refl => exact h
  | step _ ih => exact ih.succ hcomplete

/-- Each restart that is not the last to matter gives one more array a text. -/
theorem exists_settled (index : ClassIndex) (arrays : List Literal) :
    ∃ n ≤ arrays.length, Settled index arrays n := by
  by_contra hnone
  push Not at hnone
  have hgrows : ∀ n ≤ arrays.length + 1, n ≤ textCount index arrays n := by
    intro n hn
    induction n with
    | zero => exact Nat.zero_le _
    | succ n ih =>
      have hle : textCount index arrays n ≤ textCount index arrays (n + 1) :=
        List.countP_mono_left fun a _ => textWithin?_isSome_succ
      have hne : textCount index arrays n ≠ textCount index arrays (n + 1) :=
        fun heq => hnone n (by omega) (settled_of_textCount heq)
      have := ih (by omega)
      omega
  have hbound : textCount index arrays (arrays.length + 1) ≤ arrays.length := List.countP_le_length
  have := hgrows (arrays.length + 1) (Nat.le_refl _)
  omega

/-- From as many restarts on as there are arrays, no array gets a text. -/
theorem textWithin?_stable (hcomplete : Complete index arrays) {a : Literal} (ha : a ∈ arrays) {n : Nat}
    {t : String} (h : textWithin? index n a = some t) :
    textWithin? index arrays.length a = some t := by
  obtain ⟨k, hk, hsettled⟩ := exists_settled index arrays
  have hlength := hsettled.mono hcomplete hk
  induction n with
  | zero => cases h
  | succ n ih =>
    by_cases hn : n + 1 ≤ arrays.length
    · exact textWithin?_mono hn h
    · exact ih (hlength.mono hcomplete (by omega) a ha t h)

end Stable

/-! ## The text of an expression -/

/-- The arrays that exporting an expression may come to. -/
def knownArrays (index : ClassIndex) (v : Literal) : List Literal := indexArrays index ++ arraysOf v

theorem length_knownArrays (index : ClassIndex) (v : Literal) :
    (knownArrays index v).length = indexArrayCount index + arrayCount v := by
  rw [knownArrays, List.length_append, length_indexArrays, length_arraysOf]

theorem knownArrays_complete (index : ClassIndex) (v : Literal) : Complete index (knownArrays index v) where
  constants := List.subset_append_left _ _
  inner := by
    intro a ha
    rcases List.mem_append.mp ha with ha | ha
    · obtain ⟨d, hd, ha⟩ := List.mem_flatMap.mp ha
      obtain ⟨c, hc, ha⟩ := List.mem_flatMap.mp ha
      intro b hb
      exact List.mem_append_left _ (List.mem_flatMap.mpr ⟨d, hd, List.mem_flatMap.mpr
        ⟨c, hc, arraysOf_trans c.2 a ha hb⟩⟩)
    · exact fun b hb => List.mem_append_right _ (arraysOf_trans v a ha hb)

theorem knownArrays_within (index : ClassIndex) (v : Literal) : Within (knownArrays index v) v :=
  List.subset_append_right _ _

/-- The text that any number of restarts gives is the text of the expression. -/
theorem text?_eq_some_iff {index : ClassIndex} {v : Literal} {t : String} :
    text? index v = some t ↔ ∃ n, textWithin? index n v = some t := by
  constructor
  · exact fun h => ⟨_, h⟩
  · rintro ⟨n, h⟩
    rw [text?, ← length_knownArrays]
    cases n with
    | zero => cases h
    | succ n =>
      exact value?_of_restart (knownArrays_complete index v)
        (fun a ha s hs => textWithin?_stable (knownArrays_complete index v) ha hs)
        (knownArrays_within index v) h

/-- The text of an expression is what it is written as when array keys are written by the same rule. -/
theorem text?_eq_value? (index : ClassIndex) (v : Literal) :
    text? index v = value? (levelAt index (text? index) maxDepth) 0 v := by
  refine Option.ext fun t => ⟨fun h => ?_, fun h => ?_⟩
  · rw [text?] at h
    exact value?_of_restart (knownArrays_complete index v)
      (fun a _ s hs => text?_eq_some_iff.mpr ⟨_, hs⟩) (knownArrays_within index v) h
  · refine text?_eq_some_iff.mpr ⟨(knownArrays index v).length + 1, ?_⟩
    refine value?_of_restart (knownArrays_complete index v) (fun a ha s hs => ?_)
      (knownArrays_within index v) h
    obtain ⟨n, hn⟩ := text?_eq_some_iff.mp hs
    exact textWithin?_stable (knownArrays_complete index v) ha hn

end FacadeStubs.Export
