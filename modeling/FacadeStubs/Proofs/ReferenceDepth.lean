import FacadeStubs.Facade

/-!
# How deep references are followed

What an expression folds to and the key that it is are found in the same way: from its operands, or for a
reference from the definition of the constant, which is one reference deeper. `Rules` holds what is
different.

By such rules an expression has a value without any limit on references (`Rules.Evaluates`). The value
comes with its links, the number of references one behind the other on the longest way to it. A limit takes
away the values with more links than it allows. It touches no other value.

Results:
* `Rules.Evaluates.unique`: an expression has one value at most, with one number of links.
* `Rules.evaluate_eq_some_iff`: with a number of references to follow, exactly the values with at most so
  many links are found.
* `evaluate_foldRules`, `evaluate_keyRules`: folding and keys are evaluation by rules.
* `depth_only_loses`: what has a value at a depth has the same value at every smaller one; and at every depth
  that still allows a reference, something has a value that has none any deeper.
-/
namespace FacadeStubs

/-! ## Rules -/

/-- What an expression without operands is. -/
inductive Leaf (α : Type) where
  | value (x : α)
  /-- What the definition of a constant is. -/
  | constant (cls name : String)
  | nothing

/-- Rules for one kind of values. -/
structure Rules (α : Type) where
  leaf : Literal → Leaf α
  unary : Char → α → Option α
  binary : String → α → α → Option α
  leaf_unary : ∀ op v, leaf (.unary op v) = .nothing := by intros; rfl
  leaf_binary : ∀ op l r, leaf (.binary op l r) = .nothing := by intros; rfl

namespace Rules

variable {α : Type} (rules : Rules α) (index : ClassIndex)

/-- The value of an expression, given those of its references. -/
def evaluateWith (reference : String → String → Option α) : Literal → Option α
  | .unary op v => (evaluateWith reference v).bind (rules.unary op)
  | .binary op l r =>
    (evaluateWith reference l).bind fun a => (evaluateWith reference r).bind (rules.binary op a)
  | v =>
    match rules.leaf v with
    | .value x => some x
    | .constant c n => reference c n
    | .nothing => none

/-- The value of an expression; `budget` references may be followed one behind the other. -/
def evaluate : Nat → Literal → Option α
  | 0 => rules.evaluateWith fun _ _ => none
  | budget + 1 => rules.evaluateWith fun c n => (index.constant? c n).bind (evaluate budget)

/-- An expression has a value, with `links` references one behind the other. -/
inductive Evaluates : Nat → Literal → α → Prop
  | value {v : Literal} {x : α} (hv : rules.leaf v = .value x) : Evaluates 0 v x
  | constant {links : Nat} {v d : Literal} {c n : String} {x : α} (hv : rules.leaf v = .constant c n)
      (hd : index.constant? c n = some d) (hx : Evaluates links d x) : Evaluates (links + 1) v x
  | unary {links : Nat} {op : Char} {v : Literal} {a x : α} (ha : Evaluates links v a)
      (hx : rules.unary op a = some x) : Evaluates links (.unary op v) x
  | binary {links links' : Nat} {op : String} {l r : Literal} {a b x : α} (ha : Evaluates links l a)
      (hb : Evaluates links' r b) (hx : rules.binary op a b = some x) :
      Evaluates (max links links') (.binary op l r) x

variable {rules index}

/-! ## Values without a limit -/

/-- An expression has one value at most, with one number of links. -/
theorem Evaluates.unique {links links' : Nat} {v : Literal} {x y : α}
    (hx : rules.Evaluates index links v x) (hy : rules.Evaluates index links' v y) :
    links = links' ∧ x = y := by
  induction hx generalizing links' y with
  | value hv =>
    cases hy with
    | value hv' =>
      cases hv.symm.trans hv'
      exact ⟨rfl, rfl⟩
    | constant hv' _ _ => cases hv.symm.trans hv'
    | unary _ _ => cases hv.symm.trans (rules.leaf_unary _ _)
    | binary _ _ _ => cases hv.symm.trans (rules.leaf_binary _ _ _)
  | constant hv hd _ ih =>
    cases hy with
    | value hv' => cases hv.symm.trans hv'
    | constant hv' hd' hy =>
      cases hv.symm.trans hv'
      cases hd.symm.trans hd'
      obtain ⟨rfl, rfl⟩ := ih hy
      exact ⟨rfl, rfl⟩
    | unary _ _ => cases hv.symm.trans (rules.leaf_unary _ _)
    | binary _ _ _ => cases hv.symm.trans (rules.leaf_binary _ _ _)
  | unary _ hz ih =>
    cases hy with
    | value hv => cases hv.symm.trans (rules.leaf_unary _ _)
    | constant hv _ _ => cases hv.symm.trans (rules.leaf_unary _ _)
    | unary ha hz' =>
      obtain ⟨rfl, rfl⟩ := ih ha
      exact ⟨rfl, Option.some.inj (hz.symm.trans hz')⟩
  | binary _ _ hz ihl ihr =>
    cases hy with
    | value hv => cases hv.symm.trans (rules.leaf_binary _ _ _)
    | constant hv _ _ => cases hv.symm.trans (rules.leaf_binary _ _ _)
    | binary ha hb hz' =>
      obtain ⟨rfl, rfl⟩ := ihl ha
      obtain ⟨rfl, rfl⟩ := ihr hb
      exact ⟨rfl, Option.some.inj (hz.symm.trans hz')⟩

/-! ## Values within a limit -/

theorem evaluateWith_value (reference : String → String → Option α) {v : Literal} {x : α}
    (hv : rules.leaf v = .value x) : rules.evaluateWith reference v = some x := by
  cases v with
  | unary op v => cases hv.symm.trans (rules.leaf_unary op v)
  | binary op l r => cases hv.symm.trans (rules.leaf_binary op l r)
  | _ => simp only [evaluateWith, hv]

theorem evaluateWith_constant (reference : String → String → Option α) {v : Literal} {c n : String}
    (hv : rules.leaf v = .constant c n) : rules.evaluateWith reference v = reference c n := by
  cases v with
  | unary op v => cases hv.symm.trans (rules.leaf_unary op v)
  | binary op l r => cases hv.symm.trans (rules.leaf_binary op l r)
  | _ => simp only [evaluateWith, hv]

theorem evaluate_unary (budget : Nat) (op : Char) (v : Literal) :
    rules.evaluate index budget (.unary op v) =
      (rules.evaluate index budget v).bind (rules.unary op) := by
  cases budget <;> rfl

theorem evaluate_binary (budget : Nat) (op : String) (l r : Literal) :
    rules.evaluate index budget (.binary op l r) =
      (rules.evaluate index budget l).bind fun a =>
        (rules.evaluate index budget r).bind (rules.binary op a) := by
  cases budget <;> rfl

/-- A value that is found from the values of references is one, if these are values of definitions with
fewer links. -/
theorem exists_evaluates {reference : String → String → Option α} {bound : Nat}
    (href : ∀ {c n x}, reference c n = some x → ∃ d links, index.constant? c n = some d ∧
      links < bound ∧ rules.Evaluates index links d x) {v : Literal} {x : α}
    (h : rules.evaluateWith reference v = some x) :
    ∃ links ≤ bound, rules.Evaluates index links v x := by
  fun_induction evaluateWith rules reference v generalizing x with
  | case1 op v ih =>
    obtain ⟨a, ha, hx⟩ := Option.bind_eq_some_iff.1 h
    obtain ⟨links, hle, ha⟩ := ih ha
    exact ⟨links, hle, .unary ha hx⟩
  | case2 op l r ihl ihr =>
    obtain ⟨a, ha, h⟩ := Option.bind_eq_some_iff.1 h
    obtain ⟨b, hb, hx⟩ := Option.bind_eq_some_iff.1 h
    obtain ⟨links, hle, ha⟩ := ihl ha
    obtain ⟨links', hle', hb⟩ := ihr hb
    exact ⟨max links links', Nat.max_le.2 ⟨hle, hle'⟩, .binary ha hb hx⟩
  | case3 v _ _ y hv =>
    cases h
    exact ⟨0, Nat.zero_le _, .value hv⟩
  | case4 v _ _ c n hv =>
    obtain ⟨d, links, hd, hlt, hx⟩ := href h
    exact ⟨links + 1, hlt, .constant hv hd hx⟩
  | case5 => cases h

/-- A value is found if as many references may be followed as it has links. -/
theorem Evaluates.evaluate {links budget : Nat} {v : Literal} {x : α}
    (h : rules.Evaluates index links v x) (hle : links ≤ budget) :
    rules.evaluate index budget v = some x := by
  induction h generalizing budget with
  | value hv => cases budget <;> exact evaluateWith_value _ hv
  | constant hv hd _ ih =>
    obtain ⟨budget, rfl⟩ := Nat.exists_eq_succ_of_ne_zero (Nat.ne_zero_of_lt hle)
    rw [Rules.evaluate, evaluateWith_constant _ hv, hd]
    exact ih (Nat.le_of_succ_le_succ hle)
  | unary _ hx ih => rw [evaluate_unary, ih hle, Option.bind_some, hx]
  | binary _ _ hx ihl ihr =>
    rw [evaluate_binary, ihl (Nat.le_trans (Nat.le_max_left _ _) hle),
      ihr (Nat.le_trans (Nat.le_max_right _ _) hle), Option.bind_some, Option.bind_some, hx]

/-- What is found with `budget` references to follow are the values with so many links at most. -/
theorem evaluate_eq_some_iff {budget : Nat} {v : Literal} {x : α} :
    rules.evaluate index budget v = some x ↔ ∃ links ≤ budget, rules.Evaluates index links v x := by
  refine ⟨fun h => ?_, fun ⟨links, hle, hx⟩ => hx.evaluate hle⟩
  -- on the budget: the definition of a constant is no part of the expression
  induction budget generalizing v x with
  | zero => exact exists_evaluates (fun href => by cases href) h
  | succ budget ih =>
    refine exists_evaluates (fun href => ?_) h
    obtain ⟨d, hd, hx⟩ := Option.bind_eq_some_iff.1 href
    obtain ⟨links, hle, hx⟩ := ih hx
    exact ⟨d, links, hd, Nat.lt_succ_of_le hle, hx⟩

/-- More references to follow take no value away and change none. -/
theorem evaluate_mono {budget budget' : Nat} (hle : budget ≤ budget') {v : Literal} {x : α}
    (h : rules.evaluate index budget v = some x) : rules.evaluate index budget' v = some x := by
  obtain ⟨links, hlinks, hx⟩ := evaluate_eq_some_iff.1 h
  exact hx.evaluate (Nat.le_trans hlinks hle)

/-- A value with more links than references may be followed is lost, and no other one is found. -/
theorem Evaluates.evaluate_eq_none {links budget : Nat} {v : Literal} {x : α}
    (h : rules.Evaluates index links v x) (hlt : budget < links) :
    rules.evaluate index budget v = none := by
  refine Option.eq_none_iff_forall_ne_some.2 fun y hy => ?_
  obtain ⟨links', hle, hy⟩ := evaluate_eq_some_iff.1 hy
  obtain ⟨rfl, -⟩ := h.unique hy
  exact Nat.not_le_of_lt hlt hle

end Rules

/-! ## Folding and keys by rules -/

open Export

/-- What an expression folds to: the name of a class may be asked of any reference. -/
def foldRules : Rules Literal where
  leaf
    | .classConst c n => if isClassWord n then .value (.str c) else .constant c n
    | .lateStatic c n => if isClassWord n then .value (.str c) else .constant c n
    | .unary _ _ | .binary _ _ _ | .array _ | .expr _ => .nothing
    | v => .value v
  unary := unary?
  binary := binary?

/-- The key that an expression is: late static references mean the class that is called. -/
def keyRules (called : String) : Rules String where
  leaf
    | .str s => .value s
    | .int i => .value (Decimal.intText i.toInt)
    | .classConst c n => .constant c n
    | .lateStatic _ n => if lowerCase n == "class" then .value called else .constant called n
    | _ => .nothing
  unary _ _ := none
  binary op a b := if op == "." then some (a ++ b) else none

theorem evaluateWith_foldRules (reference : String → String → Option Literal) :
    ∀ v : Literal, foldRules.evaluateWith reference v = foldWith reference v
  | .null | .bool _ | .int _ | .float _ | .str _ | .array _ | .expr _ => rfl
  | .classConst c n | .lateStatic c n => by
    simp only [Rules.evaluateWith, foldRules, foldWith]
    cases isClassWord n <;> rfl
  | .unary op v => by
    rw [Rules.evaluateWith, evaluateWith_foldRules reference v]
    rfl
  | .binary op l r => by
    rw [Rules.evaluateWith, evaluateWith_foldRules reference l, evaluateWith_foldRules reference r,
      foldWith]
    cases foldWith reference l <;> cases foldWith reference r <;> rfl

theorem evaluateWith_keyRules (called : String) (reference : String → String → Option String) :
    ∀ v : Literal, (keyRules called).evaluateWith reference v = Facade.keyWith reference called v
  | .null | .bool _ | .int _ | .float _ | .str _ | .array _ | .expr _ | .classConst _ _ => rfl
  | .lateStatic c n => by
    simp only [Rules.evaluateWith, keyRules, Facade.keyWith]
    cases lowerCase n == "class" <;> rfl
  | .unary op v => by
    rw [Rules.evaluateWith]
    cases (keyRules called).evaluateWith reference v <;> rfl
  | .binary op l r => by
    rw [Rules.evaluateWith, evaluateWith_keyRules called reference l,
      evaluateWith_keyRules called reference r, Facade.keyWith]
    simp only [keyRules]
    cases Facade.keyWith reference called l <;> cases Facade.keyWith reference called r <;>
      cases op == "." <;> rfl

section
variable (index : ClassIndex)

/-- Folding is evaluation by rules. -/
theorem evaluate_foldRules (budget : Nat) : foldRules.evaluate index budget = fold index budget := by
  induction budget with
  | zero => exact funext (evaluateWith_foldRules _)
  | succ budget ih =>
    rw [Rules.evaluate, ih]
    exact funext (evaluateWith_foldRules _)

/-- The key of an expression is found by rules. -/
theorem evaluate_keyRules (called : String) (budget : Nat) :
    (keyRules called).evaluate index budget = Facade.key? index called budget := by
  induction budget with
  | zero => exact funext (evaluateWith_keyRules called _)
  | succ budget ih =>
    rw [Rules.evaluate, ih]
    exact funext (evaluateWith_keyRules called _)

end

/-! ## A ladder of constants -/

/-- The name of a constant of the ladder. -/
def rungName (k : Nat) : String := String.ofList (List.replicate (k + 1) 'x')

/-- What stands on the ladder at a height: a text on the ground, else the constant below. -/
def rung : Nat → Literal
  | 0 => .str "ground"
  | k + 1 => .classConst "Ladder" (rungName k)

/-- A class with `height` constants: a text, and each other one is the one before. -/
def ladderClass (height : Nat) : ClassDecl where
  name := "Ladder"
  constants := (List.range height).map fun k => (rungName k, rung k)

def ladder (height : Nat) : ClassIndex where
  decls := [ladderClass height]
  distinct := by simp

theorem rungName_inj {j k : Nat} (h : rungName j = rungName k) : j = k := by
  have hlength := congrArg (fun s => s.toList.length) h
  simpa [rungName] using hlength

theorem isClassWord_rungName (k : Nat) : isClassWord (rungName k) = false := by
  rw [isClassWord, beq_eq_false_iff_ne]
  intro h
  have hlist := congrArg String.toList h
  simp [rungName, lowerCase, lowered, List.replicate_succ] at hlist

theorem ladderClass_constant? {height k : Nat} (h : k < height) :
    (ladderClass height).constant? (rungName k) = some (rung k) := by
  have hfind : (List.range height).find?
      ((fun c => c.1 == rungName k) ∘ fun j => (rungName j, rung j)) = some k := by
    refine List.find?_range_eq_some.2 ⟨beq_self_eq_true _, List.mem_range.2 h, fun j hj => ?_⟩
    have hne : rungName j ≠ rungName k := fun heq => Nat.ne_of_lt hj (rungName_inj heq)
    simpa using hne
  rw [ClassDecl.constant?, ladderClass, List.find?_map, hfind]
  rfl

theorem constant?_ladder {height k : Nat} (h : k < height) :
    (ladder height).constant? "Ladder" (rungName k) = some (rung k) := by
  have hget : (ladder height).get? "Ladder" = some (ladderClass height) :=
    List.find?_cons_of_pos (beq_self_eq_true _)
  rw [ClassIndex.constant?, List.filterMap_cons_some hget, List.findSome?_cons,
    ladderClass_constant? h]

/-- The rung at a height has as many links, whatever the rules are, if they look up its constants. -/
theorem evaluates_rung {α : Type} {rules : Rules α} {x : α} (hground : rules.leaf (rung 0) = .value x)
    (hrung : ∀ k, rules.leaf (rung (k + 1)) = .constant "Ladder" (rungName k)) {height k : Nat}
    (h : k ≤ height) : rules.Evaluates (ladder height) k (rung k) x := by
  induction k with
  | zero => exact .value hground
  | succ k ih => exact .constant (hrung k) (constant?_ladder h) (ih (Nat.le_of_succ_le h))

theorem fold_rung {height k : Nat} (h : k ≤ height) :
    foldRules.Evaluates (ladder height) k (rung k) (.str "ground") :=
  evaluates_rung rfl (fun k => by simp only [rung, foldRules, isClassWord_rungName]; rfl) h

theorem key_rung (called : String) {height k : Nat} (h : k ≤ height) :
    (keyRules called).Evaluates (ladder height) k (rung k) "ground" :=
  evaluates_rung rfl (fun _ => rfl) h

/-! ## The limit

Behind `depth` references, `maxDepth - depth` more may be followed. -/

/-- The limit on references only loses values. What folds behind some references folds to the same behind
fewer, and what is a key behind some is the same key behind fewer. How many there are does matter: as long
as another one may be followed, some expression folds and is a key behind so many, and neither folds nor is
a key behind more. -/
theorem depth_only_loses {d e : Nat} (hde : d ≤ e) :
    (∀ index v x, fold index (maxDepth - e) v = some x → fold index (maxDepth - d) v = some x) ∧
    (∀ index called v s, Facade.key? index called (maxDepth - e) v = some s →
      Facade.key? index called (maxDepth - d) v = some s) ∧
    (d < e → d < maxDepth → ∃ index v,
      ((fold index (maxDepth - d) v).isSome = true ∧ fold index (maxDepth - e) v = none) ∧
      ∀ called, (Facade.key? index called (maxDepth - d) v).isSome = true ∧
        Facade.key? index called (maxDepth - e) v = none) := by
  have hbudget : maxDepth - e ≤ maxDepth - d := Nat.sub_le_sub_left hde _
  simp only [← evaluate_foldRules, ← evaluate_keyRules]
  refine ⟨fun _ _ _ => Rules.evaluate_mono hbudget, fun _ _ _ _ => Rules.evaluate_mono hbudget,
    fun hlt hd => ?_⟩
  have hless : maxDepth - e < maxDepth - d := by omega
  refine ⟨ladder (maxDepth - d), rung (maxDepth - d), ⟨?_, ?_⟩, fun called => ⟨?_, ?_⟩⟩
  · rw [(fold_rung (Nat.le_refl _)).evaluate (Nat.le_refl _)]
    rfl
  · exact (fold_rung (Nat.le_refl _)).evaluate_eq_none hless
  · rw [(key_rung called (Nat.le_refl _)).evaluate (Nat.le_refl _)]
    rfl
  · exact (key_rung called (Nat.le_refl _)).evaluate_eq_none hless

/-- A constant by another name, a key with a number behind it, and a constant that stands for itself. -/
def aliasIndex : ClassIndex where
  decls :=
    [{ name := "Log"
       constants := [("NAME", .str "log"), ("ALIAS", .classConst "Log" "NAME"),
         ("KEY", .binary "." (.lateStatic "Log" "ALIAS") (.int 2)),
         ("LOOP", .binary "." (.classConst "Log" "KEY") (.classConst "Log" "LOOP"))] }]

/-- The key has three links: it is found behind five references and before, but not behind six. The constant
that stands for itself is found nowhere. -/
theorem depth_only_loses_alias :
    (fold aliasIndex (maxDepth - 5) (.classConst "Log" "KEY") = some (.str "log2") ∧
      fold aliasIndex (maxDepth - 2) (.classConst "Log" "KEY") = some (.str "log2") ∧
      fold aliasIndex (maxDepth - 6) (.classConst "Log" "KEY") = none ∧
      fold aliasIndex (maxDepth - 0) (.classConst "Log" "LOOP") = none) ∧
    (Facade.key? aliasIndex "Log" (maxDepth - 5) (.classConst "Log" "KEY") = some "log2" ∧
      Facade.key? aliasIndex "Log" (maxDepth - 2) (.classConst "Log" "KEY") = some "log2") ∧
    ∃ index v, ((fold index (maxDepth - 2) v).isSome = true ∧ fold index (maxDepth - 5) v = none) ∧
      ∀ called, (Facade.key? index called (maxDepth - 2) v).isSome = true ∧
        Facade.key? index called (maxDepth - 5) v = none := by
  obtain ⟨hfold, hkey, hlost⟩ := depth_only_loses (show 2 ≤ 5 by decide)
  have hfold5 : fold aliasIndex (maxDepth - 5) (.classConst "Log" "KEY") = some (.str "log2") := rfl
  have hkey5 : Facade.key? aliasIndex "Log" (maxDepth - 5) (.classConst "Log" "KEY") = some "log2" := rfl
  exact ⟨⟨hfold5, hfold _ _ _ hfold5, rfl, rfl⟩, ⟨hkey5, hkey _ _ _ _ hkey5⟩,
    hlost (by decide) (by decide)⟩

end FacadeStubs
