import FacadeStubs.Proofs.Export.Grouping
import FacadeStubs.Proofs.Export.Restarts
import Mathlib.Data.Set.Finite.List

/-!
# When exporting ends

The calls that exporting an expression makes, one inside the other: for the value or the key that an
expression is, and for what it folds to. A call may follow a reference to a constant as long as its
budget lasts, and every call passes the budget on, but one: an array used as a key is exported from the
start, with the full budget.

* `Calls`: the calls that a call makes, by what happens to the budget;
* `references_le`: on a path without restarts no more references are followed than the budget has;
* `passes_wellFounded`: calls without restarts end, for every index;
* `endsWhereGiven`, `gives_of_ends`: calls end where they give something, and give something if they end;
* `ends_iff_no_cycle`: calls end unless an array used as a key comes back to itself;
* `text?_isSome_iff_calls_end`: the three together.
-/
namespace FacadeStubs.Export

open Relation

/-! ## Calls -/

/-- A call of the exporter: with a budget, for the text of a value, for a key, or for what an
expression folds to. -/
inductive Call where
  | value (budget : Nat) (v : Literal)
  | key (budget : Nat) (k : Literal)
  | fold (budget : Nat) (v : Literal)

def Call.budget : Call → Nat
  | value budget _ => budget
  | key budget _ => budget
  | fold budget _ => budget

def Call.literal : Call → Literal
  | value _ v => v
  | key _ k => k
  | fold _ v => v

/-- The class and the name of a reference to a constant. -/
def reference? : Literal → Option (String × String)
  | .classConst c n => some (c, n)
  | .lateStatic c n => some (c, n)
  | _ => none

/-- The values of an array by their keys; an automatic key follows the largest integer key so far. -/
def keyed? (level : Level) (next : Int64) : List ArrayEntry → Option (List (ArrayKey × Literal))
  | [] => some []
  | entry :: rest =>
    match entryKey? entry with
    | none => none
    | some key => (keyed? level (nextAfter next key) rest).map ((key, entry.value) :: ·)
where
  entryKey? : ArrayEntry → Option ArrayKey
    | .item _ => some (.int next)
    | .pair k _ => keyOf? level k

/-- A value of an array that is exported: no later entry has the same key. -/
def Survives (index : ClassIndex) (budget : Nat) (entries : List ArrayEntry) (v : Literal) : Prop :=
  ∃ pairs key, keyed? (levelAt index (text? index) budget) 0 entries = some pairs ∧
    LastUnder pairs (key, v)

/-- What a call does to the budget: a reference takes one from it, a part leaves it, a restart gives
the full budget. -/
inductive Kind where
  | reference
  | part
  | restart
  deriving DecidableEq

/-- The calls that a call makes. -/
inductive Calls (index : ClassIndex) : Kind → Call → Call → Prop
  | valueConstant {budget : Nat} {v d : Literal} {c n : String} (hv : reference? v = some (c, n))
      (hd : index.constant? c n = some d) : Calls index .reference (.value (budget + 1) v) (.value budget d)
  | valueFold {budget : Nat} {v : Literal} (hv : isOperator v = true) :
      Calls index .part (.value budget v) (.fold budget v)
  | valueOperand {budget : Nat} {v w : Literal} (hv : isOperator v = true)
      (hfold : fold index budget v = none) (hw : w ∈ v.parts) (hoperand : fold index budget w = none) :
      Calls index .part (.value budget v) (.value budget w)
  | valueKey {budget : Nat} {entries : List ArrayEntry} {entry : ArrayEntry} {k : Literal}
      (hentry : entry ∈ entries) (hk : entry.key? = some k) :
      Calls index .part (.value budget (.array entries)) (.key budget k)
  | valueEntry {budget : Nat} {entries : List ArrayEntry} {w : Literal}
      (hw : Survives index budget entries w) :
      Calls index .part (.value budget (.array entries)) (.value budget w)
  | keyConstant {budget : Nat} {k d : Literal} {c n : String} (hk : reference? k = some (c, n))
      (hd : index.constant? c n = some d) : Calls index .reference (.key (budget + 1) k) (.key budget d)
  | keyFold {budget : Nat} {k : Literal} (hk : isOperator k = true) :
      Calls index .part (.key budget k) (.fold budget k)
  | keyOperator {budget : Nat} {k : Literal} (hk : isOperator k = true)
      (hfold : fold index budget k = none) : Calls index .part (.key budget k) (.value budget k)
  | keyArray {budget : Nat} (entries : List ArrayEntry) :
      Calls index .restart (.key budget (.array entries)) (.value maxDepth (.array entries))
  | foldConstant {budget : Nat} {v d : Literal} {c n : String} (hv : reference? v = some (c, n))
      (hword : isClassWord n = false) (hd : index.constant? c n = some d) :
      Calls index .reference (.fold (budget + 1) v) (.fold budget d)
  | foldOperand {budget : Nat} {v w : Literal} (hv : isOperator v = true) (hw : w ∈ v.parts) :
      Calls index .part (.fold budget v) (.fold budget w)

/-- One call inside another. -/
def Step (index : ClassIndex) (caller callee : Call) : Prop := ∃ kind, Calls index kind caller callee

/-- One call inside another that is no restart. -/
def Passes (index : ClassIndex) (caller callee : Call) : Prop :=
  ∃ kind, kind ≠ .restart ∧ Calls index kind caller callee

/-- The calls of a call end. -/
def Ends (index : ClassIndex) (call : Call) : Prop := Acc (fun inner call => Step index call inner) call

/-- Calls one inside the other, by their kinds. -/
inductive Path (index : ClassIndex) : List Kind → Call → Call → Prop
  | nil (call : Call) : Path index [] call call
  | cons {kind : Kind} {kinds : List Kind} {call inner last : Call} (h : Calls index kind call inner)
      (hrest : Path index kinds inner last) : Path index (kind :: kinds) call last

/-! ## The budget -/

section Budget

variable {index : ClassIndex}

theorem budget_of_calls {kind : Kind} {call inner : Call} (h : Calls index kind call inner) :
    (kind = .reference → inner.budget + 1 = call.budget) ∧
      (kind = .part → inner.budget = call.budget) := by
  cases h <;> simp [Call.budget]

/-- On a path without restarts each reference takes one from the budget. -/
theorem references_add_budget {kinds : List Kind} {call last : Call} (h : Path index kinds call last)
    (hrestart : .restart ∉ kinds) : kinds.count .reference + last.budget = call.budget := by
  induction h with
  | nil call => simp
  | @cons kind kinds call inner last hcall _ ih =>
    simp only [List.mem_cons, not_or] at hrestart
    have hrest := ih hrestart.2
    obtain ⟨href, hpart⟩ := budget_of_calls hcall
    cases kind with
    | reference =>
      rw [List.count_cons_self]
      have := href rfl
      omega
    | part =>
      rw [List.count_cons_of_ne (by decide), hrest, hpart rfl]
    | restart => exact absurd rfl hrestart.1

theorem references_le {kinds : List Kind} {call last : Call} (h : Path index kinds call last)
    (hrestart : .restart ∉ kinds) : kinds.count .reference ≤ call.budget := by
  have := references_add_budget h hrestart
  omega

end Budget

/-! ## Calls without restarts -/

theorem keyed?_cons {level : Level} {next : Int64} {entry : ArrayEntry} {rest : List ArrayEntry}
    {pairs : List (ArrayKey × Literal)} : keyed? level next (entry :: rest) = some pairs ↔
      ∃ key others, keyed?.entryKey? level next entry = some key ∧
        keyed? level (nextAfter next key) rest = some others ∧ pairs = (key, entry.value) :: others := by
  rw [keyed?]
  cases keyed?.entryKey? level next entry <;> simp [eq_comm]

theorem keyed?_values {level : Level} : ∀ {entries : List ArrayEntry} {next : Int64}
    {pairs : List (ArrayKey × Literal)}, keyed? level next entries = some pairs →
    pairs.map (·.2) = entries.map ArrayEntry.value
  | [], _, pairs, h => by
    cases h
    rfl
  | entry :: rest, next, pairs, h => by
    obtain ⟨key, others, -, hothers, rfl⟩ := keyed?_cons.mp h
    simp [keyed?_values hothers]

theorem Survives.exists_entry {index : ClassIndex} {budget : Nat} {entries : List ArrayEntry} {w : Literal}
    (h : Survives index budget entries w) : ∃ entry ∈ entries, entry.value = w := by
  obtain ⟨pairs, key, hpairs, hlast⟩ := h
  refine List.mem_map.1 ?_
  rw [← keyed?_values hpairs]
  exact List.mem_map_of_mem hlast.mem

theorem Survives.mem_parts {index : ClassIndex} {budget : Nat} {entries : List ArrayEntry} {w : Literal}
    (h : Survives index budget entries w) : w ∈ (Literal.array entries).parts := by
  obtain ⟨entry, hentry, rfl⟩ := h.exists_entry
  exact List.mem_flatMap.mpr ⟨entry, hentry, by simp [ArrayEntry.parts]⟩

theorem key_mem_parts {entries : List ArrayEntry} {entry : ArrayEntry} {k : Literal}
    (hentry : entry ∈ entries) (hk : entry.key? = some k) : k ∈ (Literal.array entries).parts :=
  List.mem_flatMap.mpr ⟨entry, hentry, by simp [ArrayEntry.parts, hk]⟩

/-- Calls without restarts end: they go on with less budget, or with the same budget on a part. -/
theorem passes_wellFounded (index : ClassIndex) : WellFounded fun inner call => Passes index call inner := by
  have hall : ∀ budget v, Acc (fun inner call => Passes index call inner) (.fold budget v) ∧
      Acc (fun inner call => Passes index call inner) (.value budget v) ∧
      Acc (fun inner call => Passes index call inner) (.key budget v) := by
    intro budget
    induction budget using Nat.strong_induction_on with
    | _ budget hless =>
      intro v
      induction v using Literal.parts_induction with
      | step v hparts =>
        have hfold : Acc (fun inner call => Passes index call inner) (.fold budget v) := by
          refine Acc.intro _ fun inner hstep => ?_
          obtain ⟨kind, -, hcall⟩ := hstep
          cases hcall with
          | foldConstant _ _ _ => exact (hless _ (Nat.lt_succ_self _) _).1
          | foldOperand _ hw => exact (hparts _ hw).1
        have hvalue : Acc (fun inner call => Passes index call inner) (.value budget v) := by
          refine Acc.intro _ fun inner hstep => ?_
          obtain ⟨kind, -, hcall⟩ := hstep
          cases hcall with
          | valueConstant _ _ => exact (hless _ (Nat.lt_succ_self _) _).2.1
          | valueFold _ => exact hfold
          | valueOperand _ _ hw _ => exact (hparts _ hw).2.1
          | valueKey hentry hk => exact (hparts _ (key_mem_parts hentry hk)).2.2
          | valueEntry hw => exact (hparts _ hw.mem_parts).2.1
        refine ⟨hfold, hvalue, Acc.intro _ fun inner hstep => ?_⟩
        obtain ⟨kind, hkind, hcall⟩ := hstep
        cases hcall with
        | keyConstant _ _ => exact (hless _ (Nat.lt_succ_self _) _).2.2
        | keyFold _ => exact hfold
        | keyOperator _ _ => exact hvalue
        | keyArray entries => exact absurd rfl hkind
  refine ⟨fun call => ?_⟩
  cases call with
  | value budget v => exact (hall budget v).2.1
  | key budget v => exact (hall budget v).2.2
  | fold budget v => exact (hall budget v).1

/-- A call ends if what it restarts ends. -/
theorem ends_of_restarts {index : ClassIndex} (call : Call)
    (h : ∀ entries, TransGen (Step index) call (.value maxDepth (.array entries)) →
      Ends index (.value maxDepth (.array entries))) : Ends index call := by
  induction call using (passes_wellFounded index).induction with
  | _ call ih =>
    refine Acc.intro _ fun inner hstep => ?_
    obtain ⟨kind, hcall⟩ := hstep
    by_cases hkind : kind = .restart
    · subst hkind
      cases hcall with
      | keyArray entries => exact h entries (.single ⟨_, .keyArray entries⟩)
    · exact ih inner ⟨kind, hkind, hcall⟩ fun entries hpath => h entries (.head ⟨kind, hcall⟩ hpath)

/-! ## Coming back -/

/-- What a call is about stays among the arrays that are known. -/
theorem within_of_calls {index : ClassIndex} {arrays : List Literal} (hcomplete : Complete index arrays)
    {call inner : Call} (h : Step index call inner) (hcall : Within arrays call.literal) :
    Within arrays inner.literal := by
  have hdefined : ∀ {c n : String} {d : Literal}, index.constant? c n = some d → Within arrays d :=
    fun hd => List.Subset.trans (arraysOf_constant hd) hcomplete.constants
  obtain ⟨kind, h⟩ := h
  cases h with
  | valueConstant _ hd => exact hdefined hd
  | valueFold _ => exact hcall
  | valueOperand _ _ hw _ => exact hcall.parts _ hw
  | valueKey hentry hk => exact hcall.parts _ (key_mem_parts hentry hk)
  | valueEntry hw => exact hcall.parts _ hw.mem_parts
  | keyConstant _ hd => exact hdefined hd
  | keyFold _ => exact hcall
  | keyOperator _ _ => exact hcall
  | keyArray entries => exact hcall
  | foldConstant _ _ hd => exact hdefined hd
  | foldOperand _ hw => exact hcall.parts _ hw

theorem within_of_transGen {index : ClassIndex} {arrays : List Literal} (hcomplete : Complete index arrays)
    {call inner : Call} (h : TransGen (Step index) call inner) (hcall : Within arrays call.literal) :
    Within arrays inner.literal := by
  induction h with
  | single hstep => exact within_of_calls hcomplete hstep hcall
  | tail _ hstep ih => exact within_of_calls hcomplete hstep ih

section Relations

variable {α : Type} {r : α → α → Prop} {a b : α}

theorem acc_of_transGen (hacc : Acc (fun b a => r a b) a) (h : TransGen r a b) :
    Acc (fun b a => r a b) b := by
  induction h with
  | single h => exact hacc.inv h
  | tail _ h ih => exact ih.inv h

theorem not_transGen_of_acc (h : Acc (fun b a => r a b) a) : ¬ TransGen r a a := by
  have hirrefl : ∀ {x : α}, Acc (TransGen fun b a => r a b) x → ¬ TransGen (fun b a => r a b) x x := by
    intro x hx
    induction hx with
    | intro x _ ih => exact fun hcycle => ih x hcycle hcycle
  exact fun hcycle => hirrefl h.transGen (transGen_swap.mpr hcycle)

end Relations

/-- An array is exported from the start in the course of a call. -/
def Comes (index : ClassIndex) (call : Call) (entries : List ArrayEntry) : Prop :=
  TransGen (Step index) call (.value maxDepth (.array entries))

/-- Calls end unless an array that they come to comes back to itself. -/
theorem ends_iff_no_cycle (index : ClassIndex) (v : Literal) :
    Ends index (.value maxDepth v) ↔
      ∀ entries, Comes index (.value maxDepth v) entries →
        ¬ Comes index (.value maxDepth (.array entries)) entries := by
  constructor
  · intro hacc entries hcomes
    exact not_transGen_of_acc (acc_of_transGen hacc hcomes)
  · intro hnone
    -- The arrays that are come to, ordered by which one comes to which: finitely many, without cycles.
    let Met := { a : Literal //
      a ∈ knownArrays index v ∧ ∃ entries, a = .array entries ∧ Comes index (.value maxDepth v) entries }
    have hfinite : Finite Met :=
      Set.Finite.subset (List.finite_toSet (knownArrays index v)) fun a ha => ha.1
    let under : Met → Met → Prop := fun b a =>
      TransGen (Step index) (.value maxDepth a.1) (.value maxDepth b.1)
    have htrans : IsTrans Met under := ⟨fun _ _ _ hab hbc => hbc.trans hab⟩
    have hirrefl : Std.Irrefl under := by
      refine ⟨fun a => ?_⟩
      obtain ⟨a, -, entries, rfl, hcomes⟩ := a
      exact hnone entries hcomes
    have hmet : ∀ entries, Comes index (.value maxDepth v) entries → .array entries ∈ knownArrays index v :=
      fun entries hcomes =>
        (within_of_transGen (knownArrays_complete index v) hcomes (knownArrays_within index v)).mem
    have hends : ∀ a : Met, Ends index (.value maxDepth a.1) := by
      intro a
      induction a using (Finite.wellFounded_of_trans_of_irrefl under).induction with
      | _ a ih =>
        refine ends_of_restarts _ fun entries hpath => ?_
        obtain ⟨a, ha, inner, rfl, hcomes⟩ := a
        have hentries : Comes index (.value maxDepth v) entries := hcomes.trans hpath
        exact ih ⟨.array entries, hmet entries hentries, entries, rfl, hentries⟩ hpath
    refine ends_of_restarts _ fun entries hcomes => ?_
    exact hends ⟨.array entries, hmet entries hcomes, entries, rfl, hcomes⟩

/-! ## Texts and calls -/

section Levels

variable {index : ClassIndex} {restart : Literal → Option String}

theorem levelAt_restart (index : ClassIndex) (restart : Literal → Option String) (budget : Nat) :
    (levelAt index restart budget).restart = restart := by
  cases budget <;> rfl

/-- What folds has a text. -/
theorem exists_scalarText? {budget : Nat} {v folded : Literal} (h : fold index budget v = some folded) :
    ∃ t, scalarText? folded = some t :=
  Option.isSome_iff_exists.mp (fold_scalar h)

theorem scalarKey?_isSome {v : Literal} (h : (scalarText? v).isSome = true) :
    (scalarKey? v).isSome = true := by
  cases v with
  | str s => cases hs : Decimal.canonicalInt? s <;> simp [scalarKey?, hs]
  | null => rfl
  | bool b => rfl
  | int i => rfl
  | float f => rfl
  | _ => cases h

/-- An operand that does not fold needs a text of its own. -/
theorem operandText?_isSome_iff {budget : Nat} {w : Literal} {own : Option String} :
    (operandText? (levelAt index restart budget) w own).isSome = true ↔
      (fold index budget w = none → own.isSome = true) := by
  unfold operandText?
  rw [levelAt_fold]
  cases hfold : fold index budget w with
  | some folded =>
    obtain ⟨t, ht⟩ := exists_scalarText? hfold
    simp [ht]
  | none =>
    cases isOperator w <;> simp

/-- An operator that does not fold has a text if its operands have one. -/
theorem value?_operator_isSome_iff {budget indent : Nat} {v : Literal} (hv : isOperator v = true) :
    (value? (levelAt index restart budget) indent v).isSome = true ↔
      (fold index budget v = none → ∀ w ∈ v.parts, fold index budget w = none →
        (value? (levelAt index restart budget) 0 w).isSome = true) := by
  cases hfold : fold index budget v with
  | some folded =>
    obtain ⟨t, ht⟩ := exists_scalarText? hfold
    cases v with
    | binary op l r => simp [value?, levelAt_fold, hfold, ht]
    | unary op w => simp [value?, levelAt_fold, hfold, ht]
    | _ => cases hv
  | none =>
    cases v with
    | binary op l r =>
      have hl := @operandText?_isSome_iff index restart budget l (value? (levelAt index restart budget) 0 l)
      have hr := @operandText?_isSome_iff index restart budget r (value? (levelAt index restart budget) 0 r)
      simp only [value?, levelAt_fold, hfold, Option.bind_none, Literal.parts, List.forall_mem_cons,
        forall_const, List.not_mem_nil, false_imp_iff, and_true]
      rw [← hl, ← hr]
      generalize operandText? _ l _ = a
      generalize operandText? _ r _ = b
      cases a <;> cases b <;> simp
    | unary op w =>
      have hw := @operandText?_isSome_iff index restart budget w (value? (levelAt index restart budget) 0 w)
      simp only [value?, levelAt_fold, hfold, Option.bind_none, Literal.parts, List.forall_mem_cons,
        forall_const, List.not_mem_nil, false_imp_iff, and_true]
      rw [← hw, Option.isSome_map]
    | _ => cases hv

end Levels

section Arrays

variable {level : Level}

/-- Every entry has a key if the keys that are written have one. -/
theorem keyed?_isSome_iff {entries : List ArrayEntry} {next : Int64} :
    (keyed? level next entries).isSome = true ↔
      ∀ entry ∈ entries, ∀ k, entry.key? = some k → (keyOf? level k).isSome = true := by
  induction entries generalizing next with
  | nil => simp [keyed?]
  | cons entry rest ih =>
    cases entry with
    | item v => simp [keyed?, keyed?.entryKey?, ArrayEntry.key?, ih]
    | pair k v =>
      cases hk : keyOf? level k <;> simp [keyed?, keyed?.entryKey?, ArrayEntry.key?, ih, hk]

theorem slot?_isSome_iff {entry : ArrayEntry} {indent : Nat} :
    (slot? level indent entry).isSome = true ↔
      ∀ k, entry.key? = some k → (keyOf? level k).isSome = true := by
  cases entry with
  | item v => simp [slot?, ArrayEntry.key?]
  | pair k v => simp [slot?, ArrayEntry.key?, keyOf?]

theorem slots?_isSome_iff {entries : List ArrayEntry} {indent : Nat} :
    (slots? level indent entries).isSome = true ↔
      ∀ entry ∈ entries, ∀ k, entry.key? = some k → (keyOf? level k).isSome = true := by
  induction entries with
  | nil => simp [slots?]
  | cons entry rest ih =>
    rw [List.forall_mem_cons, ← ih, ← @slot?_isSome_iff level entry indent, slots?]
    cases slot? level indent entry <;> cases slots? level indent rest <;> simp

theorem entryKey?_of_slot {entry : ArrayEntry} {indent : Nat} {slot : Slot} (next : Int64)
    (h : slot? level indent entry = some slot) :
    keyed?.entryKey? level next entry = some (slot.key.getD (.int next)) := by
  cases entry with
  | item v =>
    obtain rfl := Option.some.inj h
    rfl
  | pair k v =>
    obtain ⟨key, hkey, rfl⟩ := Option.map_eq_some_iff.mp h
    exact hkey

theorem text_of_slot {entry : ArrayEntry} {indent : Nat} {slot : Slot}
    (h : slot? level indent entry = some slot) : slot.text = value? level indent entry.value := by
  cases entry with
  | item v =>
    obtain rfl := Option.some.inj h
    rfl
  | pair k v =>
    obtain ⟨key, -, rfl⟩ := Option.map_eq_some_iff.mp h
    rfl

/-- The entries with their texts stand under the same keys as the values. -/
theorem numbered_keyed? {entries : List ArrayEntry} {indent : Nat} {slots : List Slot} {next : Int64}
    {pairs : List (ArrayKey × Literal)} (hslots : slots? level indent entries = some slots)
    (hpairs : keyed? level next entries = some pairs) :
    List.Forall₂ (fun p p' => p.1 = p'.1 ∧ p.2.text = value? level indent p'.2)
      (numbered next slots) pairs := by
  induction slots?_eq_some_iff.mp hslots generalizing next pairs with
  | nil =>
    cases hpairs
    exact .nil
  | @cons entry slot rest slots hslot hrest ih =>
    obtain ⟨key, others, hkey, hothers, rfl⟩ := keyed?_cons.mp hpairs
    obtain rfl := Option.some.inj ((entryKey?_of_slot next hslot).symm.trans hkey)
    exact .cons ⟨rfl, text_of_slot hslot⟩ (ih (slots?_eq_some_iff.mpr hrest) hothers)

/-- An array has a text if all keys have one and the values that are left. -/
theorem value?_array_isSome_iff {entries : List ArrayEntry} {indent : Nat} :
    (value? level indent (.array entries)).isSome = true ↔
      ∃ pairs, keyed? level 0 entries = some pairs ∧
        ∀ key w, LastUnder pairs (key, w) → (value? level (indent + 2) w).isSome = true := by
  rw [value?]
  cases hslots : slots? level (indent + 2) entries with
  | none =>
    have hnone : ¬ (keyed? level 0 entries).isSome = true := by
      rw [keyed?_isSome_iff, ← @slots?_isSome_iff level entries (indent + 2), hslots]
      simp
    constructor
    · intro h
      cases h
    · rintro ⟨pairs, hpairs, -⟩
      exact absurd (by rw [hpairs]; rfl) hnone
  | some slots =>
    have hsome : (keyed? level 0 entries).isSome = true := by
      rw [keyed?_isSome_iff, ← @slots?_isSome_iff level entries (indent + 2), hslots]
      rfl
    obtain ⟨pairs, hpairs⟩ := Option.isSome_iff_exists.mp hsome
    have hsame := numbered_keyed? hslots hpairs
    simp only [arrayText?_isSome_iff]
    constructor
    · intro h
      refine ⟨pairs, hpairs, fun key w hlast => ?_⟩
      obtain ⟨pair, hpair, htext⟩ := hlast.of_forall₂
        (R := fun w slot => slot.text = value? level (indent + 2) w)
        (hsame.flip.imp fun p p' hp => ⟨hp.1.symm, hp.2⟩)
      rw [← htext]
      exact h pair hpair
    · rintro ⟨pairs', hpairs', h⟩ pair hlast
      obtain rfl := Option.some.inj (hpairs.symm.trans hpairs')
      obtain ⟨pair', hpair', htext⟩ := hlast.of_forall₂
        (R := fun slot w => slot.text = value? level (indent + 2) w) hsame
      rw [htext]
      exact h pair'.1 pair'.2 hpair'

end Arrays

/-! ## Ending -/

section Ending

variable {index : ClassIndex}

theorem value?_reference {level : Level} {v : Literal} {c n : String} (h : reference? v = some (c, n))
    (indent : Nat) : value? level indent v = constantText? level indent c n := by
  cases v <;> cases h <;> rfl

theorem keyOf?_reference {level : Level} {k : Literal} {c n : String} (h : reference? k = some (c, n)) :
    keyOf? level k = constantKey? level c n := by
  cases k <;> cases h <;> rfl

theorem keyOf?_operator {level : Level} {k : Literal} (h : isOperator k = true) :
    keyOf? level k = match level.fold k with
      | some folded => scalarKey? folded
      | none => (value? level 0 k).map .verbatim :=
  key?_operator h

theorem keyed?_extends {P : Literal → Prop} (hparts : ∀ v, P v → ∀ w ∈ v.parts, P w) {l l' : Level}
    (h : l.Extends P l') : ∀ {entries : List ArrayEntry} {next : Int64}
    {pairs : List (ArrayKey × Literal)}, (∀ entry ∈ entries, ∀ k, entry.key? = some k → P k) →
    keyed? l next entries = some pairs → keyed? l' next entries = some pairs
  | [], _, _, _, hpairs => hpairs
  | entry :: rest, next, pairs, hkeys, hpairs => by
    rw [List.forall_mem_cons] at hkeys
    obtain ⟨key, others, hkey, hothers, rfl⟩ := keyed?_cons.mp hpairs
    have hkey' : keyed?.entryKey? l' next entry = some key := by
      cases entry with
      | item v => exact hkey
      | pair k v => exact keyOf?_extends hparts h (hkeys.1 k rfl) hkey
    exact keyed?_cons.mpr ⟨key, others, hkey', keyed?_extends hparts h hkeys.2 hothers, rfl⟩

/-- Folding calls nothing but folding. -/
theorem ends_fold (budget : Nat) (v : Literal) : Ends index (.fold budget v) := by
  have hfolds : ∀ call, TransGen (Step index) (.fold budget v) call → ∃ b w, call = .fold b w := by
    intro call h
    induction h with
    | single h =>
      obtain ⟨_, hcall⟩ := h
      cases hcall <;> exact ⟨_, _, rfl⟩
    | tail _ h ih =>
      obtain ⟨b, w, rfl⟩ := ih
      obtain ⟨_, hcall⟩ := h
      cases hcall <;> exact ⟨_, _, rfl⟩
  refine ends_of_restarts _ fun entries h => ?_
  obtain ⟨b, w, heq⟩ := hfolds _ h
  cases heq

/-- Restarts that end where they give a text, which is the text of the array. -/
def EndingRestarts (index : ClassIndex) (restart : Literal → Option String) : Prop :=
  ∀ entries t, restart (.array entries) = some t →
    Ends index (.value maxDepth (.array entries)) ∧ text? index (.array entries) = some t

/-- The calls at an expression end where they give something. -/
structure EndsWhereGiven (index : ClassIndex) (restart : Literal → Option String) (budget : Nat)
    (v : Literal) : Prop where
  value : ∀ indent, (value? (levelAt index restart budget) indent v).isSome = true →
    Ends index (.value budget v)
  key : (keyOf? (levelAt index restart budget) v).isSome = true → Ends index (.key budget v)

section Given

variable {restart : Literal → Option String} {budget : Nat} {v : Literal}

theorem ends_value_of_isSome (hrestart : EndingRestarts index restart)
    (hless : ∀ b < budget, ∀ w, EndsWhereGiven index restart b w)
    (hparts : ∀ w ∈ v.parts, EndsWhereGiven index restart budget w) (indent : Nat)
    (h : (value? (levelAt index restart budget) indent v).isSome = true) :
    Ends index (.value budget v) := by
  refine Acc.intro _ fun inner hstep => ?_
  obtain ⟨kind, hcall⟩ := hstep
  cases hcall with
  | valueConstant hv hd =>
    rw [value?_reference hv, constantText?] at h
    simp only [levelAt, hd] at h
    exact (hless _ (Nat.lt_succ_self _) _).value indent h
  | valueFold hv => exact ends_fold budget v
  | valueOperand hv hfold hw hoperand =>
    exact (hparts _ hw).value 0 ((value?_operator_isSome_iff hv).mp h hfold _ hw hoperand)
  | valueKey hentry hk =>
    obtain ⟨pairs, hpairs, -⟩ := value?_array_isSome_iff.mp h
    have hkey := keyed?_isSome_iff.mp (Option.isSome_of_eq_some hpairs) _ hentry _ hk
    exact (hparts _ (key_mem_parts hentry hk)).key hkey
  | valueEntry hw =>
    -- The keys are the same with fewer restarts, so the same values are left.
    obtain ⟨pairs, hpairs, hleft⟩ := value?_array_isSome_iff.mp h
    obtain ⟨pairs', key, hpairs', hlast⟩ := hw
    have hlevel : (levelAt index restart budget).Extends (fun _ => True)
        (levelAt index (text? index) budget) :=
      levelAt_extends (fun _ _ _ _ => trivial) (fun _ _ _ _ => trivial)
        (fun entries t _ ht => (hrestart entries t ht).2) budget
    have hsame := keyed?_extends (fun _ _ _ _ => trivial) hlevel (fun _ _ _ _ => trivial) hpairs
    obtain rfl := Option.some.inj (hsame.symm.trans hpairs')
    exact (hparts _ (Survives.mem_parts ⟨pairs, key, hsame, hlast⟩)).value _ (hleft key _ hlast)

theorem ends_key_of_isSome (hrestart : EndingRestarts index restart)
    (hless : ∀ b < budget, ∀ w, EndsWhereGiven index restart b w)
    (hvalue : ∀ indent, (value? (levelAt index restart budget) indent v).isSome = true →
      Ends index (.value budget v))
    (h : (keyOf? (levelAt index restart budget) v).isSome = true) : Ends index (.key budget v) := by
  refine Acc.intro _ fun inner hstep => ?_
  obtain ⟨kind, hcall⟩ := hstep
  cases hcall with
  | keyConstant hk hd =>
    rw [keyOf?_reference hk, constantKey?] at h
    simp only [levelAt, hd] at h
    exact (hless _ (Nat.lt_succ_self _) _).key h
  | keyFold hk => exact ends_fold budget v
  | keyOperator hk hfold =>
    rw [keyOf?_operator hk, levelAt_fold, hfold] at h
    exact hvalue 0 (by simpa using h)
  | keyArray entries =>
    have harray : (((levelAt index restart budget).restart (.array entries)).map
        ArrayKey.verbatim).isSome = true := h
    rw [levelAt_restart, Option.isSome_map] at harray
    obtain ⟨t, ht⟩ := Option.isSome_iff_exists.mp harray
    exact (hrestart entries t ht).1

end Given

/-- If restarts end where they give a text, calls end where they give something. -/
theorem endsWhereGiven {restart : Literal → Option String} (hrestart : EndingRestarts index restart)
    (budget : Nat) (v : Literal) : EndsWhereGiven index restart budget v := by
  induction budget using Nat.strong_induction_on generalizing v with
  | _ budget hless =>
    induction v using Literal.parts_induction with
    | step v hparts =>
      have hvalue := ends_value_of_isSome hrestart hless hparts
      exact ⟨hvalue, ends_key_of_isSome hrestart hless hvalue⟩

/-- What a call is to give is there. -/
def Gives (index : ClassIndex) : Call → Prop
  | .value budget v =>
    ∀ indent, (value? (levelAt index (text? index) budget) indent v).isSome = true
  | .key budget k => (keyOf? (levelAt index (text? index) budget) k).isSome = true
  | .fold _ _ => True

theorem gives_value_reference {budget : Nat} {v : Literal} {c n : String} (hv : reference? v = some (c, n))
    (h : ∀ inner, Step index (.value budget v) inner → Gives index inner) :
    Gives index (.value budget v) := by
  intro indent
  rw [value?_reference hv, constantText?]
  cases budget with
  | zero => rfl
  | succ budget =>
    cases hd : index.constant? c n with
    | none => simp [levelAt, hd]
    | some d =>
      have hbelow : Gives index (.value budget d) := h _ ⟨_, .valueConstant hv hd⟩
      simpa [levelAt, hd] using hbelow indent

theorem gives_key_reference {budget : Nat} {k : Literal} {c n : String} (hk : reference? k = some (c, n))
    (h : ∀ inner, Step index (.key budget k) inner → Gives index inner) :
    Gives index (.key budget k) := by
  simp only [Gives]
  rw [keyOf?_reference hk, constantKey?]
  cases budget with
  | zero => rfl
  | succ budget =>
    cases hd : index.constant? c n with
    | none => simp [levelAt, hd]
    | some d =>
      have hbelow : Gives index (.key budget d) := h _ ⟨_, .keyConstant hk hd⟩
      simpa [levelAt, hd, Gives] using hbelow

theorem gives_value_operator {budget : Nat} {v : Literal} (hv : isOperator v = true)
    (h : ∀ inner, Step index (.value budget v) inner → Gives index inner) :
    Gives index (.value budget v) := by
  intro indent
  refine (value?_operator_isSome_iff hv).mpr fun hfold w hw hoperand => ?_
  have hpart : Gives index (.value budget w) := h _ ⟨_, .valueOperand hv hfold hw hoperand⟩
  exact hpart 0

theorem gives_key_operator {budget : Nat} {k : Literal} (hk : isOperator k = true)
    (h : ∀ inner, Step index (.key budget k) inner → Gives index inner) :
    Gives index (.key budget k) := by
  simp only [Gives]
  rw [keyOf?_operator hk, levelAt_fold]
  cases hfold : fold index budget k with
  | some folded => exact scalarKey?_isSome (fold_scalar hfold)
  | none =>
    have hvalue : Gives index (.value budget k) := h _ ⟨_, .keyOperator hk hfold⟩
    simpa using hvalue 0

theorem gives_value_array {budget : Nat} {entries : List ArrayEntry}
    (h : ∀ inner, Step index (.value budget (.array entries)) inner → Gives index inner) :
    Gives index (.value budget (.array entries)) := by
  intro indent
  have hkeys : (keyed? (levelAt index (text? index) budget) 0 entries).isSome = true := by
    refine keyed?_isSome_iff.mpr fun entry hentry k hk => ?_
    have hkey : Gives index (.key budget k) := h _ ⟨_, .valueKey hentry hk⟩
    exact hkey
  obtain ⟨pairs, hpairs⟩ := Option.isSome_iff_exists.mp hkeys
  refine value?_array_isSome_iff.mpr ⟨pairs, hpairs, fun key w hlast => ?_⟩
  have hvalue : Gives index (.value budget w) := h _ ⟨_, .valueEntry ⟨pairs, key, hpairs, hlast⟩⟩
  exact hvalue (indent + 2)

theorem gives_key_array {budget : Nat} {entries : List ArrayEntry}
    (h : ∀ inner, Step index (.key budget (.array entries)) inner → Gives index inner) :
    Gives index (.key budget (.array entries)) := by
  have hrestart : Gives index (.value maxDepth (.array entries)) := h _ ⟨_, .keyArray entries⟩
  have htext : (text? index (.array entries)).isSome = true := by
    rw [text?_eq_value?]
    exact hrestart 0
  have harray : keyOf? (levelAt index (text? index) budget) (.array entries) =
      ((levelAt index (text? index) budget).restart (.array entries)).map ArrayKey.verbatim := rfl
  simp only [Gives]
  rw [harray, levelAt_restart, Option.isSome_map]
  exact htext

theorem gives_key_scalar {budget : Nat} {k : Literal} (hk : (scalarText? k).isSome = true) :
    Gives index (.key budget k) := by
  have hscalar := scalarKey?_isSome hk
  cases k <;> first | exact hscalar | cases hk

/-- Calls that end give what they are to give. -/
theorem gives_of_ends {call : Call} (h : Ends index call) : Gives index call := by
  induction h with
  | intro call _ ih =>
    cases call with
    | fold budget v => trivial
    | value budget v =>
      cases v with
      | classConst c n => exact gives_value_reference rfl ih
      | lateStatic c n => exact gives_value_reference rfl ih
      | binary op l r => exact gives_value_operator rfl ih
      | unary op w => exact gives_value_operator rfl ih
      | array entries => exact gives_value_array ih
      | _ => exact fun _ => rfl
    | key budget k =>
      cases k with
      | classConst c n => exact gives_key_reference rfl ih
      | lateStatic c n => exact gives_key_reference rfl ih
      | binary op l r => exact gives_key_operator rfl ih
      | unary op w => exact gives_key_operator rfl ih
      | array entries => exact gives_key_array ih
      | expr source => rfl
      | _ => exact gives_key_scalar rfl

/-- An expression has a text exactly if its calls end. -/
theorem text?_isSome_iff_ends (index : ClassIndex) (v : Literal) :
    (text? index v).isSome = true ↔ Ends index (.value maxDepth v) := by
  have hwithin : ∀ n v, (textWithin? index n v).isSome = true → Ends index (.value maxDepth v) := by
    intro n
    induction n with
    | zero =>
      intro v h
      cases h
    | succ n ih =>
      intro v h
      refine (endsWhereGiven (fun entries t ht => ⟨ih _ ?_, ?_⟩) maxDepth v).value 0 h
      · rw [ht]
        rfl
      · exact text?_eq_some_iff.mpr ⟨n, ht⟩
  constructor
  · exact hwithin _ v
  · intro h
    rw [text?_eq_value?]
    have hgives : Gives index (.value maxDepth v) := gives_of_ends h
    exact hgives 0

end Ending

/-- An expression has a text exactly if the calls that export it end, and they end unless an array used
as a key comes back to itself. Between restarts the budget bounds the references that are followed. -/
theorem text?_isSome_iff_calls_end (index : ClassIndex) (v : Literal) :
    ((text? index v).isSome = true ↔ Ends index (.value maxDepth v)) ∧
      (Ends index (.value maxDepth v) ↔
        ∀ entries, Comes index (.value maxDepth v) entries →
          ¬ Comes index (.value maxDepth (.array entries)) entries) ∧
      ∀ kinds last, Path index kinds (.value maxDepth v) last → .restart ∉ kinds →
        kinds.count .reference ≤ maxDepth :=
  ⟨text?_isSome_iff_ends index v, ends_iff_no_cycle index v, fun _ _ h hrestart => references_le h hrestart⟩

/-! ## Arrays as keys -/

/-- An array with an array as its key, whose value is a constant of the class `A`. -/
def keyedByArrayOf (constant : String) : Literal :=
  .array [.pair (.array [.item (.classConst "A" constant)]) (.int 0)]

/-- The class `A` has a constant `K` and uses an array of it as a key in its value. -/
def loopIndex : ClassIndex := { decls := [{ name := "A", constants := [("K", keyedByArrayOf "K")] }] }

/-- The class `A` has constants that use the next one in this way, up to one that is a number. -/
def chainIndex : ClassIndex :=
  { decls :=
      [{ name := "A"
         constants :=
          [("C0", keyedByArrayOf "C1"), ("C1", keyedByArrayOf "C2"), ("C2", keyedByArrayOf "C3"),
           ("C3", keyedByArrayOf "C4"), ("C4", keyedByArrayOf "C5"), ("C5", keyedByArrayOf "C6"),
           ("C6", keyedByArrayOf "C7"), ("C7", keyedByArrayOf "C8"), ("C8", keyedByArrayOf "C9"),
           ("C9", .int 1)] }] }

theorem Path.append {index : ClassIndex} {kinds kinds' : List Kind} {call inner last : Call}
    (h : Path index kinds call inner) (h' : Path index kinds' inner last) :
    Path index (kinds ++ kinds') call last := by
  induction h with
  | nil _ => exact h'
  | cons hcall _ ih => exact .cons hcall (ih h')

/-- From a constant to the constant in the key of its value: the budget is full again. -/
theorem path_to_key {index : ClassIndex} {constant next : String}
    (h : index.constant? "A" constant = some (keyedByArrayOf next)) :
    Path index [.reference, .part, .restart, .part] (.value maxDepth (.classConst "A" constant))
      (.value maxDepth (.classConst "A" next)) := by
  have hlast : Survives index maxDepth [.item (.classConst "A" next)] (.classConst "A" next) :=
    ⟨[(.int 0, .classConst "A" next)], .int 0, rfl, [], [], rfl, by simp⟩
  refine .cons (.valueConstant rfl h) (.cons (.valueKey List.mem_cons_self rfl) ?_)
  exact .cons (.keyArray _) (.cons (.valueEntry hlast) (.nil _))

/-- An array as a key makes exporting run in circles, and lets it follow ten references one inside the
other where it does not. -/
theorem array_key_restarts :
    text? loopIndex (.classConst "A" "K") = none ∧
      ¬ Ends loopIndex (.value maxDepth (.classConst "A" "K")) ∧
      ∃ kinds last, Path chainIndex kinds (.value maxDepth (.classConst "A" "C0")) last ∧
        kinds.count .reference = 10 ∧ text? chainIndex (.classConst "A" "C0") ≠ none := by
  have hnone : text? loopIndex (.classConst "A" "K") = none := by decide +kernel
  refine ⟨hnone, ?_, ?_⟩
  · rw [← text?_isSome_iff_ends, hnone]
    decide
  · have hpath : Path chainIndex _ (.value maxDepth (.classConst "A" "C0"))
        (.value maxDepth (.classConst "A" "C9")) :=
      (path_to_key rfl).append <| (path_to_key rfl).append <| (path_to_key rfl).append <|
        (path_to_key rfl).append <| (path_to_key rfl).append <| (path_to_key rfl).append <|
        (path_to_key rfl).append <| (path_to_key rfl).append (path_to_key rfl)
    have hend : Path chainIndex [.reference] (.value maxDepth (.classConst "A" "C9")) (.value 7 (.int 1)) :=
      .cons (.valueConstant rfl rfl) (.nil _)
    exact ⟨_, _, hpath.append hend, by decide, by decide +kernel⟩

end FacadeStubs.Export
