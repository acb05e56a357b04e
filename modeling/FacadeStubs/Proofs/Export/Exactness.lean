import FacadeStubs.Proofs.Decimal.Digits
import FacadeStubs.Proofs.Keys
import Mathlib.Algebra.Ring.Int.Parity

/-!
# Integer arithmetic is exact

Integer operators are folded without wrapping: a result is a 64-bit integer if the exact one is, and a
float or nothing if it is not. A float does not become an integer again, so whatever folds to an integer
was computed from integers only.

Results:
* `exact_of_binary?`, `exact_of_unary?`: an operator that gives an integer has integers as operands, and
  its value is exact.
* `LeadsToIntegers.fold_below`: what is folded on the way to an integer folds to an integer.
* `Below.fold_eq_none`: what does not fold keeps everything above it from folding.
* `fold_exact`: trees of integers and constants fold to their value, if to an integer at all.
-/
namespace FacadeStubs.Export

/-! ## Integers -/

/-- A bitwise operator on integers of 64 bits. -/
def bitwise (f : BitVec 64 → BitVec 64 → BitVec 64) (x y : Int) : Int :=
  (f (BitVec.ofInt 64 x) (BitVec.ofInt 64 y)).toInt

/-- The value of a binary operator, where it has one. -/
def exactBinary? (op : String) (x y : Int) : Option Int :=
  match op with
  | "+" => some (x + y)
  | "-" => some (x - y)
  | "*" => some (x * y)
  | "/" => if y ≠ 0 ∧ y ∣ x then some (x / y) else none
  | "%" => if y ≠ 0 then some (x.tmod y) else none
  | "**" => if 0 ≤ y then some (x ^ y.toNat) else none
  | "|" => some (bitwise (· ||| ·) x y)
  | "&" => some (bitwise (· &&& ·) x y)
  | "^" => some (bitwise (· ^^^ ·) x y)
  | "<<" => if 0 ≤ y ∧ y < 64 then some ((x * 2 ^ y.toNat).bmod (2 ^ 64)) else none
  | ">>" => if 0 ≤ y ∧ y < 64 then some (x / 2 ^ y.toNat) else none
  | _ => none

/-- The value of a unary operator. -/
def exactUnary? (op : Char) (x : Int) : Option Int :=
  match op with
  | '-' => some (-x)
  | '+' => some x
  | '~' => some (-x - 1)
  | _ => none

theorem toInt_of_int64? {x : Int} {i : Int64} (h : Decimal.int64? x = some i) : i.toInt = x := by
  unfold Decimal.int64? at h
  split at h
  · rename_i hrange
    obtain rfl := Option.some.inj h
    exact Int64.toInt_ofInt_of_le hrange.1 hrange.2
  · cases h

/-- A power of 0, 1 or -1 depends on the parity of the exponent only. -/
theorem pow_parity {x : Int} (hx : x.natAbs ≤ 1) {e : Nat} (he : 64 ≤ e) : x ^ (64 + e % 2) = x ^ e := by
  obtain rfl | rfl | rfl : x = 0 ∨ x = 1 ∨ x = -1 := by omega
  · rw [Int.zero_pow (by omega), Int.zero_pow (by omega)]
  · rw [Int.one_pow, Int.one_pow]
  · obtain h | h := Nat.mod_two_eq_zero_or_one e
    · rw [h, (Nat.even_iff.2 h).neg_one_pow]
      rfl
    · rw [h, (Nat.odd_iff.2 h).neg_one_pow]
      rfl

theorem toInt_of_powInt? {x : Int} {e : Nat} {i : Int64} (h : powInt? x e = some i) :
    i.toInt = x ^ e := by
  unfold powInt? at h
  split at h
  · exact toInt_of_int64? h
  · split at h
    · rename_i hbig hsmall
      rw [toInt_of_int64? h]
      exact pow_parity hsmall (by omega)
    · cases h

/-! ## Bits -/

theorem ofInt_toInt (a : Int64) : BitVec.ofInt 64 a.toInt = a.toBitVec := by
  rw [← Int64.toInt_toBitVec, BitVec.ofInt_toInt]

theorem toInt_or (a b : Int64) : (a ||| b).toInt = bitwise (· ||| ·) a.toInt b.toInt := by
  rw [bitwise, ofInt_toInt, ofInt_toInt, ← Int64.toBitVec_or, Int64.toInt_toBitVec]

theorem toInt_and (a b : Int64) : (a &&& b).toInt = bitwise (· &&& ·) a.toInt b.toInt := by
  rw [bitwise, ofInt_toInt, ofInt_toInt, ← Int64.toBitVec_and, Int64.toInt_toBitVec]

theorem toInt_xor (a b : Int64) : (a ^^^ b).toInt = bitwise (· ^^^ ·) a.toInt b.toInt := by
  rw [bitwise, ofInt_toInt, ofInt_toInt, ← Int64.toBitVec_xor, Int64.toInt_toBitVec]

/-- The number of places of a shift that has one. -/
theorem shift_places {b : Int64} (hlow : 0 ≤ b.toInt) (hhigh : b.toInt < 64) :
    (b.toBitVec.smod 64).toNat = b.toInt.toNat := by
  have hplaces : (b.toBitVec.smod 64).toInt = b.toInt := by
    rw [BitVec.toInt_smod, Int64.toInt_toBitVec]
    show b.toInt.fmod 64 = _
    rw [Int.fmod_eq_emod_of_nonneg _ (by decide)]
    omega
  have hcond := BitVec.toInt_eq_toNat_cond (b.toBitVec.smod 64)
  split at hcond <;> omega

theorem toInt_shiftLeft {a b : Int64} (hlow : 0 ≤ b.toInt) (hhigh : b.toInt < 64) :
    (a <<< b).toInt = (a.toInt * 2 ^ b.toInt.toNat).bmod (2 ^ 64) := by
  have hmod : a.toInt = (a.toBitVec.toNat : Int).bmod (2 ^ 64) := by
    rw [← Int64.toInt_toBitVec, BitVec.toInt_eq_toNat_bmod]
  rw [← Int64.toInt_toBitVec, Int64.toBitVec_shiftLeft, BitVec.shiftLeft_eq', shift_places hlow hhigh,
    BitVec.toInt_shiftLeft, Nat.shiftLeft_eq, hmod, Int.bmod_mul_bmod, Int.natCast_mul,
    Int.natCast_pow]
  rfl

theorem toInt_shiftRight {a b : Int64} (hlow : 0 ≤ b.toInt) (hhigh : b.toInt < 64) :
    (a >>> b).toInt = a.toInt / 2 ^ b.toInt.toNat := by
  rw [← Int64.toInt_toBitVec, Int64.toBitVec_shiftRight, BitVec.toInt_sshiftRight',
    shift_places hlow hhigh, Int64.toInt_toBitVec, Int.shiftRight_eq_div_pow]
  norm_cast

theorem toInt_complement (a : Int64) : (~~~a).toInt = -a.toInt - 1 := by
  have hlow := a.le_toInt
  have hhigh := a.toInt_lt
  rw [Int64.toInt_not, Int.bmod_eq_of_le (by omega) (by omega)]

/-! ## Operators -/

def binaryOperators : List String := ["+", "-", "*", "/", "%", "**", "|", "&", "^", "<<", ">>"]

def unaryOperators : List Char := ['-', '+', '~']

theorem exact_of_integerOp? {op : String} {a b i : Int64} (h : integerOp? op a b = some i) :
    exactBinary? op a.toInt b.toInt = some i.toInt := by
  unfold integerOp? at h
  dsimp only at h
  split at h
  · rw [toInt_of_int64? h]; rfl
  · rw [toInt_of_int64? h]; rfl
  · rw [toInt_of_int64? h]; rfl
  · split at h
    · rename_i hdivides
      have hdvd : b.toInt ∣ a.toInt := Int.dvd_of_tmod_eq_zero hdivides.2
      rw [toInt_of_int64? h, Int.tdiv_eq_ediv_of_dvd hdvd]
      exact if_pos ⟨hdivides.1, hdvd⟩
    · cases h
  · split at h
    · rename_i hexponent
      rw [toInt_of_powInt? h]
      exact if_pos hexponent.1
    · cases h
  · cases h

theorem exact_of_bitOp? {op : String} {a b i : Int64} (h : bitOp? op a b = some i) :
    exactBinary? op a.toInt b.toInt = some i.toInt := by
  unfold bitOp? at h
  dsimp only at h
  split at h
  · split at h
    · cases h
    · rename_i hdefined
      rw [not_or] at hdefined
      rw [toInt_of_int64? h]
      exact if_pos hdefined.1
  · cases h
    rw [toInt_or]; rfl
  · cases h
    rw [toInt_and]; rfl
  · cases h
    rw [toInt_xor]; rfl
  · split at h
    · rename_i hplaces
      cases h
      rw [toInt_shiftLeft hplaces.1 hplaces.2]
      exact if_pos hplaces
    · cases h
  · split at h
    · rename_i hplaces
      cases h
      rw [toInt_shiftRight hplaces.1 hplaces.2]
      exact if_pos hplaces
    · cases h
  · cases h

/-- An operator that gives an integer has integers as operands, and its value is exact. A float never
becomes an integer again. -/
theorem exact_of_binary? {op : String} (hop : op ∈ binaryOperators) {v w : Literal} {i : Int64}
    (h : binary? op v w = some (.int i)) :
    ∃ a b, v = .int a ∧ w = .int b ∧ exactBinary? op a.toInt b.toInt = some i.toInt := by
  have hother : ∀ op ∈ binaryOperators, (op == ".") = false ∧ (op == "??") = false := by decide
  obtain ⟨hjoin, hnull⟩ := hother op hop
  unfold binary? at h
  rw [hjoin, hnull] at h
  simp only [Bool.false_eq_true, if_false] at h
  split at h
  · unfold arithmetic? at h
    dsimp only at h
    split at h
    · rename_i heq
      cases h
      split at heq
      · exact ⟨_, _, rfl, rfl, exact_of_integerOp? heq⟩
      · cases heq
    · split at h
      · obtain ⟨f, -, hf⟩ := Option.map_eq_some_iff.1 h
        cases hf
      · cases h
  · split at h
    · obtain ⟨j, hj, hi⟩ := Option.map_eq_some_iff.1 h
      cases hi
      exact ⟨_, _, rfl, rfl, exact_of_bitOp? hj⟩
    · cases h

theorem exact_of_unary? {op : Char} {v : Literal} {i : Int64} (h : unary? op v = some (.int i)) :
    ∃ a, v = .int a ∧ exactUnary? op a.toInt = some i.toInt := by
  unfold unary? at h
  split at h
  · obtain ⟨j, hj, hi⟩ := Option.map_eq_some_iff.1 h
    cases hi
    exact ⟨_, rfl, by rw [toInt_of_int64? hj]; rfl⟩
  · cases h
  · cases h
    exact ⟨_, rfl, rfl⟩
  · cases h
  · cases h
  · cases h
    exact ⟨_, rfl, by rw [toInt_complement]; rfl⟩
  · cases h

/-! ## Trees -/

/-- An expression of integers, constants and operators on integers. -/
def IntegerTree : Literal → Prop
  | .int _ => True
  | .classConst _ _ => True
  | .lateStatic _ _ => True
  | .unary op v => op ∈ unaryOperators ∧ IntegerTree v
  | .binary op l r => op ∈ binaryOperators ∧ IntegerTree l ∧ IntegerTree r
  | _ => False

section
variable (index : ClassIndex)

/-- The definition that a reference to a constant stands for. -/
def Defines (c n : String) (d : Literal) : Prop :=
  isClassWord n = false ∧ index.constant? c n = some d

/-- The value of an expression in integer arithmetic, all values of arithmetic operators in it being
integers of 64 bits. -/
inductive Exact : Literal → Int → Prop
  | int (i : Int64) : Exact (.int i) i.toInt
  | classConst {c n : String} {d : Literal} {x : Int} : Defines index c n d → Exact d x →
      Exact (.classConst c n) x
  | lateStatic {c n : String} {d : Literal} {x : Int} : Defines index c n d → Exact d x →
      Exact (.lateStatic c n) x
  | unary {op : Char} {v : Literal} {x z : Int} : Exact v x → exactUnary? op x = some z →
      -2 ^ 63 ≤ z → z < 2 ^ 63 → Exact (.unary op v) z
  | binary {op : String} {l r : Literal} {x y z : Int} : Exact l x → Exact r y →
      exactBinary? op x y = some z → -2 ^ 63 ≤ z → z < 2 ^ 63 → Exact (.binary op l r) z

/-- An expression that is folded on the way, with as many references to follow. -/
inductive Below : Nat → Literal → Nat → Literal → Prop
  | refl (budget : Nat) (v : Literal) : Below budget v budget v
  | classConst {budget budget' : Nat} {c n : String} {d w : Literal} : Defines index c n d →
      Below budget d budget' w → Below (budget + 1) (.classConst c n) budget' w
  | lateStatic {budget budget' : Nat} {c n : String} {d w : Literal} : Defines index c n d →
      Below budget d budget' w → Below (budget + 1) (.lateStatic c n) budget' w
  | unary {budget budget' : Nat} {op : Char} {v w : Literal} : Below budget v budget' w →
      Below budget (.unary op v) budget' w
  | left {budget budget' : Nat} {op : String} {l r w : Literal} : Below budget l budget' w →
      Below budget (.binary op l r) budget' w
  | right {budget budget' : Nat} {op : String} {l r w : Literal} : Below budget r budget' w →
      Below budget (.binary op l r) budget' w

/-- An operator that has no value for its operands. -/
inductive Undefined (budget : Nat) : Literal → Prop
  | byZero {op : String} {l r : Literal} : op = "/" ∨ op = "%" →
      fold index budget r = some (.int 0) → Undefined budget (.binary op l r)
  | byFloatZero {l r : Literal} {f : Float} : fold index budget r = some (.float f) →
      (f == 0.0) = true → Undefined budget (.binary "/" l r)
  | least {l r : Literal} : fold index budget l = some (.int Int64.minValue) →
      fold index budget r = some (.int (-1)) → Undefined budget (.binary "%" l r)
  | shift {op : String} {l r : Literal} {j : Int64} : op = "<<" ∨ op = ">>" →
      fold index budget r = some (.int j) → j.toInt < 0 ∨ 64 ≤ j.toInt →
      Undefined budget (.binary op l r)

end

section
variable {index : ClassIndex}

/-- An expression has one value at most. -/
theorem Exact.unique {v : Literal} {x y : Int} (hx : Exact index v x) (hy : Exact index v y) : x = y := by
  induction hx generalizing y with
  | int i => cases hy; rfl
  | classConst hd _ ih =>
    cases hy with
    | classConst hd' hy =>
      cases hd.2.symm.trans hd'.2
      exact ih hy
  | lateStatic hd _ ih =>
    cases hy with
    | lateStatic hd' hy =>
      cases hd.2.symm.trans hd'.2
      exact ih hy
  | unary _ hz _ _ ih =>
    cases hy with
    | unary hv hz' _ _ =>
      rw [ih hv] at hz
      exact Option.some.inj (hz.symm.trans hz')
  | binary _ _ hz _ _ ihl ihr =>
    cases hy with
    | binary hl hr hz' _ _ =>
      rw [ihl hl, ihr hr] at hz
      exact Option.some.inj (hz.symm.trans hz')

/-! ## Folding one expression -/

theorem fold_classConst {c n : String} {d : Literal} (hd : Defines index c n d) (budget : Nat) :
    fold index (budget + 1) (.classConst c n) = fold index budget d := by
  rw [fold, foldWith, hd.1, hd.2]
  rfl

theorem fold_lateStatic {c n : String} {d : Literal} (hd : Defines index c n d) (budget : Nat) :
    fold index (budget + 1) (.lateStatic c n) = fold index budget d := by
  rw [fold, foldWith, hd.1, hd.2]
  rfl

theorem fold_unary (budget : Nat) (op : Char) (v : Literal) :
    fold index budget (.unary op v) = (fold index budget v).bind (unary? op) := by
  cases budget <;> rfl

theorem fold_binary (budget : Nat) (op : String) (l r : Literal) :
    fold index budget (.binary op l r) =
      (fold index budget l).bind fun a => (fold index budget r).bind (binary? op a) := by
  have h (reference : String → String → Option Literal) :
      foldWith reference (.binary op l r) =
        (foldWith reference l).bind fun a => (foldWith reference r).bind (binary? op a) := by
    rw [foldWith]
    cases foldWith reference l <;> cases foldWith reference r <;> rfl
  cases budget <;> exact h _

/-- If the references in a tree that fold to integers fold to their values, so does the tree. -/
theorem exact_foldWith {reference : String → String → Option Literal} : ∀ {v : Literal},
    IntegerTree v →
    (∀ r ∈ v.references, ∀ i, reference r.cls r.name = some (.int i) →
      ∃ d, index.constant? r.cls r.name = some d ∧ Exact index d i.toInt) →
    ∀ {i : Int64}, foldWith reference v = some (.int i) → Exact index v i.toInt
  | .int j, _, _, i, h => by
    cases h
    exact .int j
  | .classConst c n, _, href, i, h => by
    rw [foldWith] at h
    split at h
    · cases h
    · rename_i hn
      obtain ⟨d, hd, hx⟩ := href ⟨false, c, n⟩ (List.mem_singleton_self _) i h
      exact .classConst ⟨Bool.eq_false_iff.2 hn, hd⟩ hx
  | .lateStatic c n, _, href, i, h => by
    rw [foldWith] at h
    split at h
    · cases h
    · rename_i hn
      obtain ⟨d, hd, hx⟩ := href ⟨true, c, n⟩ (List.mem_singleton_self _) i h
      exact .lateStatic ⟨Bool.eq_false_iff.2 hn, hd⟩ hx
  | .unary op v, htree, href, i, h => by
    rw [foldWith] at h
    obtain ⟨w, hw, hi⟩ := Option.bind_eq_some_iff.1 h
    obtain ⟨a, rfl, hvalue⟩ := exact_of_unary? hi
    exact .unary (exact_foldWith htree.2 href hw) hvalue i.le_toInt i.toInt_lt
  | .binary op l r, htree, href, i, h => by
    rw [foldWith] at h
    split at h
    · rename_i v w hv hw
      obtain ⟨a, b, rfl, rfl, hvalue⟩ := exact_of_binary? htree.1 h
      have hl := exact_foldWith htree.2.1 (fun r hr => href r (List.mem_append_left _ hr)) hv
      have hr := exact_foldWith htree.2.2 (fun r hr => href r (List.mem_append_right _ hr)) hw
      exact .binary hl hr hvalue i.le_toInt i.toInt_lt
    · cases h
  | .null, htree, _, _, _ | .bool _, htree, _, _, _ | .float _, htree, _, _, _
  | .str _, htree, _, _, _ | .array _, htree, _, _, _ | .expr _, htree, _, _, _ => htree.elim

/-! ## Folding a tree -/

/-- An expression that leads to trees of integers only. -/
def LeadsToIntegers (index : ClassIndex) (v : Literal) : Prop := ∀ u, index.Leads v u → IntegerTree u

namespace LeadsToIntegers

variable {v w : Literal}

theorem tree (h : LeadsToIntegers index v) : IntegerTree v := h v (.refl v)

theorem definition (h : LeadsToIntegers index v) {r : Reference} (hr : r ∈ v.references)
    (hw : index.constant? r.cls r.name = some w) : LeadsToIntegers index w :=
  fun u hu => h u (.step hr hw hu)

theorem part (h : LeadsToIntegers index v) (hw : IntegerTree w) (hsub : w.references ⊆ v.references) :
    LeadsToIntegers index w := by
  intro u hu
  cases hu with
  | refl => exact hw
  | step hr hd hu => exact h u (.step (hsub hr) hd hu)

section
variable {c n op : String} {o : Char} {d l r : Literal}

theorem classConst (h : LeadsToIntegers index (.classConst c n)) (hd : Defines index c n d) :
    LeadsToIntegers index d :=
  h.definition (r := ⟨false, c, n⟩) (List.mem_singleton_self _) hd.2

theorem lateStatic (h : LeadsToIntegers index (.lateStatic c n)) (hd : Defines index c n d) :
    LeadsToIntegers index d :=
  h.definition (r := ⟨true, c, n⟩) (List.mem_singleton_self _) hd.2

theorem operand (h : LeadsToIntegers index (.unary o v)) : LeadsToIntegers index v :=
  h.part h.tree.2 (List.Subset.refl _)

theorem left (h : LeadsToIntegers index (.binary op l r)) : LeadsToIntegers index l :=
  h.part h.tree.2.1 (List.subset_append_left _ _)

theorem right (h : LeadsToIntegers index (.binary op l r)) : LeadsToIntegers index r :=
  h.part h.tree.2.2 (List.subset_append_right _ _)

end

theorem below {budget budget' : Nat} (hw : Below index budget v budget' w)
    (h : LeadsToIntegers index v) : LeadsToIntegers index w := by
  induction hw with
  | refl _ _ => exact h
  | classConst hd _ ih => exact ih (h.classConst hd)
  | lateStatic hd _ ih => exact ih (h.lateStatic hd)
  | unary _ ih => exact ih h.operand
  | left _ ih => exact ih h.left
  | right _ ih => exact ih h.right

theorem exact {budget : Nat} {i : Int64} (h : LeadsToIntegers index v)
    (hi : fold index budget v = some (.int i)) : Exact index v i.toInt := by
  induction budget generalizing v i with
  | zero => exact exact_foldWith h.tree (fun _ _ _ hnone => by cases hnone) hi
  | succ budget ih =>
    refine exact_foldWith h.tree (fun r hr j hj => ?_) hi
    obtain ⟨d, hd, hj⟩ := Option.bind_eq_some_iff.1 hj
    exact ⟨d, hd, ih (h.definition hr hd) hj⟩

/-- What is folded on the way to an integer folds to an integer. -/
theorem fold_below {budget budget' : Nat} (hw : Below index budget v budget' w)
    (h : LeadsToIntegers index v) {i : Int64} (hi : fold index budget v = some (.int i)) :
    ∃ j, fold index budget' w = some (.int j) := by
  induction hw generalizing i with
  | refl _ _ => exact ⟨i, hi⟩
  | classConst hd hw ih =>
    rw [fold_classConst hd] at hi
    exact ih (h.classConst hd) hi
  | lateStatic hd hw ih =>
    rw [fold_lateStatic hd] at hi
    exact ih (h.lateStatic hd) hi
  | unary hw ih =>
    rw [fold_unary] at hi
    obtain ⟨a, ha, hi⟩ := Option.bind_eq_some_iff.1 hi
    obtain ⟨a, rfl, -⟩ := exact_of_unary? hi
    exact ih h.operand ha
  | left hw ih =>
    rw [fold_binary] at hi
    obtain ⟨a, ha, hi⟩ := Option.bind_eq_some_iff.1 hi
    obtain ⟨b, hb, hi⟩ := Option.bind_eq_some_iff.1 hi
    obtain ⟨a, b, rfl, rfl, -⟩ := exact_of_binary? h.tree.1 hi
    exact ih h.left ha
  | right hw ih =>
    rw [fold_binary] at hi
    obtain ⟨a, ha, hi⟩ := Option.bind_eq_some_iff.1 hi
    obtain ⟨b, hb, hi⟩ := Option.bind_eq_some_iff.1 hi
    obtain ⟨a, b, rfl, rfl, -⟩ := exact_of_binary? h.tree.1 hi
    exact ih h.right hb

end LeadsToIntegers

/-! ## Operators without a value -/

/-- What does not fold keeps everything above it from folding. -/
theorem Below.fold_eq_none {budget budget' : Nat} {v w : Literal}
    (hw : Below index budget v budget' w) (hnone : fold index budget' w = none) :
    fold index budget v = none := by
  induction hw with
  | refl _ _ => exact hnone
  | classConst hd _ ih => rw [fold_classConst hd, ih hnone]
  | lateStatic hd _ ih => rw [fold_lateStatic hd, ih hnone]
  | unary _ ih => rw [fold_unary, ih hnone]; rfl
  | left _ ih => rw [fold_binary, ih hnone]; rfl
  | right _ ih =>
    rw [fold_binary, ih hnone]
    exact Option.bind_fun_none _

theorem divide_floatZero {f : Float} (h : (f == 0.0) = true) (a : Float) : floatOp? "/" a f = none :=
  if_pos h

theorem divide_zero (v : Literal) : binary? "/" v (.int 0) = none := by
  have hzero : (Float.ofInt 0 == 0.0) = true := by decide
  have hinteger (a : Int64) : integerOp? "/" a 0 = none := by simp [integerOp?]
  show arithmetic? "/" v (.int 0) = none
  cases v <;> simp [arithmetic?, hinteger, numberOperand?, divide_floatZero hzero]

theorem divide_float {f : Float} (h : (f == 0.0) = true) (v : Literal) :
    binary? "/" v (.float f) = none := by
  show arithmetic? "/" v (.float f) = none
  cases v <;> simp [arithmetic?, numberOperand?, divide_floatZero h]

theorem remainder_zero (v : Literal) : binary? "%" v (.int 0) = none := by
  have hinteger (a : Int64) : bitOp? "%" a 0 = none := by simp [bitOp?]
  cases v <;> simp [binary?, hinteger]

theorem remainder_least : binary? "%" (.int Int64.minValue) (.int (-1)) = none := by
  decide

theorem shift_outside {op : String} (hop : op = "<<" ∨ op = ">>") {j : Int64}
    (hj : j.toInt < 0 ∨ 64 ≤ j.toInt) (v : Literal) : binary? op v (.int j) = none := by
  have hplaces : ¬(0 ≤ j.toInt ∧ j.toInt < 64) := by omega
  obtain rfl | rfl := hop
  · cases v <;> simp [binary?, bitOp?, hplaces]
  · cases v <;> simp [binary?, bitOp?, hplaces]

theorem Undefined.fold_eq_none {budget : Nat} {w : Literal} (h : Undefined index budget w) :
    fold index budget w = none := by
  cases h with
  | byZero hop hr =>
    rw [fold_binary, hr]
    obtain rfl | rfl := hop
    · simp only [Option.bind_some, divide_zero, Option.bind_fun_none]
    · simp only [Option.bind_some, remainder_zero, Option.bind_fun_none]
  | byFloatZero hr hf =>
    rw [fold_binary, hr]
    simp only [Option.bind_some, divide_float hf, Option.bind_fun_none]
  | least hl hr => rw [fold_binary, hl, hr, Option.bind_some, Option.bind_some, remainder_least]
  | shift hop hr hj =>
    rw [fold_binary, hr]
    simp only [Option.bind_some, shift_outside hop hj, Option.bind_fun_none]

/-- Integer arithmetic is exact. Where a tree of integers folds to an integer, this is its value, and so
is what everything folded on the way to it folds to. An operator that has no value for its operands
keeps all trees that it stands in from folding. -/
theorem fold_exact {v : Literal} (htree : ∀ u, index.Leads v u → IntegerTree u) (budget : Nat) :
    (∀ i, fold index budget v = some (.int i) →
      (∀ x, Exact index v x ↔ x = i.toInt) ∧
      ∀ budget' w, Below index budget v budget' w →
        ∃ j, fold index budget' w = some (.int j) ∧ ∀ x, Exact index w x ↔ x = j.toInt) ∧
    ∀ budget' w, Below index budget v budget' w → Undefined index budget' w →
      fold index budget v = none := by
  have htree : LeadsToIntegers index v := htree
  have hvalue : ∀ {budget w i}, LeadsToIntegers index w → fold index budget w = some (.int i) →
      ∀ x, Exact index w x ↔ x = i.toInt := fun hw hi x =>
    ⟨fun hx => hx.unique (hw.exact hi), fun hx => hx ▸ hw.exact hi⟩
  refine ⟨fun i hi => ⟨hvalue htree hi, fun budget' w hw => ?_⟩, fun budget' w hw hundefined => ?_⟩
  · obtain ⟨j, hj⟩ := htree.fold_below hw hi
    exact ⟨j, hj, hvalue (htree.below hw) hj⟩
  · exact hw.fold_eq_none hundefined.fold_eq_none

/-- Where all constants of an index are trees of integers, so is everything that a tree leads to. -/
theorem leadsToIntegers_of_index {v : Literal} (hv : IntegerTree v)
    (hindex : ∀ d ∈ index.decls, ∀ c ∈ d.constants, IntegerTree c.2) : LeadsToIntegers index v := by
  intro u hu
  induction hu with
  | refl v => exact hv
  | step _ hdefinition _ ih =>
    obtain ⟨d, hd, c, hc, rfl⟩ := ClassIndex.exists_of_constant? hdefinition
    exact ih (hindex d hd c hc)

end

/-- Constants of a class: `N = 7` and `M = self::N ** 2 - 1`. -/
def integerIndex : ClassIndex where
  decls :=
    [{ name := "A"
       constants := [("N", .int 7),
         ("M", .binary "-" (.binary "**" (.classConst "A" "N") (.int 2)) (.int 1))] }]

/-- The expression `A::M / 6 << 3`. -/
def shiftedQuotient : Literal :=
  .binary "<<" (.binary "/" (.classConst "A" "M") (.int 6)) (.int 3)

theorem integerTree_constants : ∀ d ∈ integerIndex.decls, ∀ c ∈ d.constants, IntegerTree c.2 := by
  simp [integerIndex, IntegerTree, binaryOperators, or_imp, forall_and]

/-- Forty-eight sixths, shifted by three places. -/
theorem fold_exact_shiftedQuotient :
    fold integerIndex maxDepth shiftedQuotient = some (.int 64) ∧
      ∀ x, Exact integerIndex shiftedQuotient x ↔ x = 64 := by
  have hfold : fold integerIndex maxDepth shiftedQuotient = some (.int 64) := by rfl
  have htree : IntegerTree shiftedQuotient := by
    simp [shiftedQuotient, IntegerTree, binaryOperators]
  have hleads := leadsToIntegers_of_index htree integerTree_constants
  exact ⟨hfold, ((fold_exact hleads maxDepth).1 64 hfold).1⟩

example : fold integerIndex maxDepth (.binary "+" (.int 1) (.binary "<<" (.int 1) (.int 64))) = none := by
  rfl

example : fold integerIndex maxDepth (.binary "%" (.unary '-' (.int 1)) (.int 0)) = none := by
  rfl

end FacadeStubs.Export
