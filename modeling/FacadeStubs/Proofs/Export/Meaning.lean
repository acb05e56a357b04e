import FacadeStubs.Proofs.Export.Grouping
import FacadeStubs.Proofs.Export.Maps

/-!
# The value of a constant expression

A constant of an indexed class has the value of its definition, however long the chain of references is
that leads to it. What other constants stand for is given: an integer or a string for each. Operators
have the values that they fold to. Floats and source text have no value here, and neither has an
expression that holds one.

An array is filled entry by entry. An entry without a key has the first number that is neither negative
nor at or below an integer key so far; if there is none, the array has no value. An entry whose key
stands in the array already takes its place.

Results:
* `Means.unique`: an expression has one value at most.
* `Means.fold`: what an expression folds to is its value.
-/
namespace FacadeStubs.Export

/-! ## Values -/

/-- A key of an array. -/
inductive Key where
  | int (value : Int64)
  | str (value : String)
  deriving DecidableEq, Repr

/-- A value without parts. -/
inductive Scalar where
  | null
  | bool (value : Bool)
  | int (value : Int64)
  | str (value : String)
  deriving DecidableEq, Repr

/-- A value. An array is a map whose keys have an order. -/
inductive Value where
  | scalar (value : Scalar)
  | array (pairs : List (Key × Value))

def Key.scalar : Key → Scalar
  | .int i => .int i
  | .str s => .str s

/-- The literal that stands for a value. -/
def Scalar.literal : Scalar → Literal
  | .null => .null
  | .bool b => .bool b
  | .int i => .int i
  | .str s => .str s

/-- The key that a value is: a string that is the decimal text of an integer is that integer. -/
def Scalar.key : Scalar → Key
  | .null => .str ""
  | .bool b => .int (if b then 1 else 0)
  | .int i => .int i
  | .str s =>
    match Decimal.canonicalInt? s with
    | some i => .int i
    | none => .str s

theorem Scalar.literal_inj {s t : Scalar} (h : s.literal = t.literal) : s = t := by
  cases s <;> cases t <;> cases h <;> rfl

/-! ## Arrays as they are filled -/

/-- An array that is being filled. -/
structure Filling where
  pairs : List (Key × Value) := []
  /-- The number of the next entry without a key. -/
  next : Int := 0

namespace Filling

/-- The number behind a key. -/
def behind (next : Int) : Key → Int
  | .int i => max next (i.toInt + 1)
  | .str _ => next

/-- Puts a value under its key. -/
def set (f : Filling) (k : Key) (x : Value) : Filling := ⟨put k x f.pairs, behind f.next k⟩

/-- The key of an entry without one, if there is a number left. -/
def automatic? (f : Filling) : Option Key := (Decimal.int64? f.next).map .int

end Filling

/-! ## What expressions mean -/

section
variable (index : ClassIndex) (given : String → String → Key)

mutual

/-- An expression has a value, given what the constants of other classes stand for. -/
inductive Means : Literal → Value → Prop
  | null : Means .null (.scalar .null)
  | bool (b : Bool) : Means (.bool b) (.scalar (.bool b))
  | int (i : Int64) : Means (.int i) (.scalar (.int i))
  | str (s : String) : Means (.str s) (.scalar (.str s))
  | classConst {c n : String} {x : Value} : ConstantMeans c n x → Means (.classConst c n) x
  | lateStatic {c n : String} {x : Value} : ConstantMeans c n x → Means (.lateStatic c n) x
  | unary {op : Char} {v : Literal} {a s : Scalar} : Means v (.scalar a) →
      unary? op a.literal = some s.literal → Means (.unary op v) (.scalar s)
  | binary {op : String} {l r : Literal} {a b s : Scalar} : Means l (.scalar a) →
      Means r (.scalar b) → binary? op a.literal b.literal = some s.literal →
      Means (.binary op l r) (.scalar s)
  | array {entries : List ArrayEntry} {f : Filling} : Fills {} entries f →
      Means (.array entries) (.array f.pairs)

/-- A constant of a class has a value. No class has a constant that is called like the keyword for its
name. -/
inductive ConstantMeans : String → String → Value → Prop
  | known {c n : String} {d : Literal} {x : Value} : isClassWord n = false →
      index.constant? c n = some d → Means d x → ConstantMeans c n x
  | unknown {c n : String} : isClassWord n = false → index.constant? c n = none →
      ConstantMeans c n (.scalar (given c n).scalar)
  | name {c n : String} : isClassWord n = true → index.constant? c n = none →
      ConstantMeans c n (.scalar (.str c))

/-- Entries fill an array. -/
inductive Fills : Filling → List ArrayEntry → Filling → Prop
  | nil (f : Filling) : Fills f [] f
  | item {f g : Filling} {v : Literal} {rest : List ArrayEntry} {k : Key} {x : Value} : Means v x →
      f.automatic? = some k → Fills (f.set k x) rest g → Fills f (.item v :: rest) g
  | pair {f g : Filling} {k v : Literal} {rest : List ArrayEntry} {s : Scalar} {x : Value} :
      Means k (.scalar s) → Means v x → Fills (f.set s.key x) rest g → Fills f (.pair k v :: rest) g

end

end

section
variable {index : ClassIndex} {given : String → String → Key}

mutual

/-- An expression has one value at most. -/
theorem Means.unique {v : Literal} {x y : Value} : Means index given v x → Means index given v y → x = y
  | .null, .null | .bool _, .bool _ | .int _, .int _ | .str _, .str _ => rfl
  | .classConst hx, .classConst hy => hx.unique hy
  | .lateStatic hx, .lateStatic hy => hx.unique hy
  | .unary hx hs, .unary hy ht => by
    cases hx.unique hy
    rw [hs, Option.some_inj] at ht
    rw [Scalar.literal_inj ht]
  | .binary hl hr hs, .binary hl' hr' ht => by
    cases hl.unique hl'
    cases hr.unique hr'
    rw [hs, Option.some_inj] at ht
    rw [Scalar.literal_inj ht]
  | .array hf, .array hg => by rw [hf.unique hg]

theorem ConstantMeans.unique {c n : String} {x y : Value} :
    ConstantMeans index given c n x → ConstantMeans index given c n y → x = y
  | .known _ hd hx, .known _ he hy => by
    cases hd.symm.trans he
    exact hx.unique hy
  | .unknown _ _, .unknown _ _ | .name _ _, .name _ _ => rfl
  | .known _ hd _, .unknown _ he | .known _ hd _, .name _ he
  | .unknown _ he, .known _ hd _ | .name _ he, .known _ hd _ => by cases hd.symm.trans he
  | .unknown hn _, .name hm _ | .name hm _, .unknown hn _ => by cases hn.symm.trans hm

theorem Fills.unique {f g g' : Filling} {entries : List ArrayEntry} :
    Fills index given f entries g → Fills index given f entries g' → g = g'
  | .nil _, .nil _ => rfl
  | .item hx hk hg, .item hy hk' hg' => by
    cases hx.unique hy
    cases hk.symm.trans hk'
    exact hg.unique hg'
  | .pair hk hx hg, .pair hk' hy hg' => by
    cases hk.unique hk'
    cases hx.unique hy
    exact hg.unique hg'

end

/-! ## Folding -/

/-- What an expression folds to is its value if that holds of the constants in it. -/
theorem Means.foldWith {reference : String → String → Option Literal}
    (href : ∀ {c n w x}, ConstantMeans index given c n x → isClassWord n = false →
      reference c n = some w → ∃ s : Scalar, x = .scalar s ∧ s.literal = w) :
    ∀ {v w : Literal} {x : Value}, Means index given v x → Export.foldWith reference v = some w →
      ∃ s : Scalar, x = .scalar s ∧ s.literal = w
  | _, _, _, .null, hw | _, _, _, .bool _, hw | _, _, _, .int _, hw | _, _, _, .str _, hw => by
    cases hw
    exact ⟨_, rfl, rfl⟩
  | _, _, _, .classConst hx, hw | _, _, _, .lateStatic hx, hw => by
    rw [Export.foldWith] at hw
    split at hw
    · rename_i hword
      cases hw
      cases hx with
      | known hn _ _ => cases hn.symm.trans hword
      | unknown hn _ => cases hn.symm.trans hword
      | name _ _ => exact ⟨_, rfl, rfl⟩
    · rename_i hword
      exact href hx (by simpa using hword) hw
  | _, _, _, .unary hv hs, hw => by
    obtain ⟨a, ha, hw⟩ := Option.bind_eq_some_iff.1 hw
    obtain ⟨_, hscalar, rfl⟩ := hv.foldWith href ha
    cases hscalar
    exact ⟨_, rfl, Option.some.inj (hs.symm.trans hw)⟩
  | _, _, _, .binary hl hr hs, hw => by
    rw [Export.foldWith] at hw
    split at hw
    · rename_i a b ha hb
      obtain ⟨_, hscalar, rfl⟩ := hl.foldWith href ha
      cases hscalar
      obtain ⟨_, hscalar, rfl⟩ := hr.foldWith href hb
      cases hscalar
      exact ⟨_, rfl, Option.some.inj (hs.symm.trans hw)⟩
    · cases hw

/-- What an expression folds to is its value. -/
theorem Means.fold {budget : Nat} {v w : Literal} {x : Value} (h : Means index given v x)
    (hw : fold index budget v = some w) : ∃ s : Scalar, x = .scalar s ∧ s.literal = w := by
  induction budget generalizing v w x with
  | zero => exact h.foldWith (fun _ _ hnone => by cases hnone) hw
  | succ budget ih =>
    refine h.foldWith (fun hx hn href => ?_) hw
    obtain ⟨d, hd, hfold⟩ := Option.bind_eq_some_iff.1 href
    cases hx with
    | known _ hd' hx =>
      cases hd.symm.trans hd'
      exact ih hx hfold
    | unknown _ hnone => cases hd.symm.trans hnone
    | name hword _ => cases hn.symm.trans hword

end

end FacadeStubs.Export
