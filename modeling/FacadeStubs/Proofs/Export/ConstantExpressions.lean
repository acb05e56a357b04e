import FacadeStubs.Proofs.Export.SourceOperands
import FacadeStubs.Proofs.Export.Defaults
import FacadeStubs.Proofs.Keys

/-!
# Constant expressions of the source

What is exported are the constants that a source has in its defaults and in the constants of its classes.
`ConstantExpression` is the syntax of these: scalars, references, constants and new objects without
arguments, signs, operators and parentheses with any blanks and comments between them, and arrays.
`Spelled` says the same of what they are taken for. Where all that an expression leads to is spelled, the
exporter writes it as one of the forms whose text is known (`Nested`).

Arrays are no operands and no keys here, nor are references that lead to an array.

Results:
* `Spelled.nested`: what is spelled, with all that it leads to, is written.
* `ConstantExpression.spelled`: what a constant expression of an accepted source is taken for is spelled.
-/
namespace FacadeStubs

open Php Export

namespace Export

/-! ## Constants -/

/-- An array, or a reference that leads to one. -/
inductive IsArrayIn (index : ClassIndex) : Literal → Prop
  | array (entries : List ArrayEntry) : IsArrayIn index (.array entries)
  | followed {v d : Literal} {c n : String} : reference? v = some (c, n) → index.constant? c n = some d →
      IsArrayIn index d → IsArrayIn index v

/-- All else is no array. -/
theorem not_isArrayIn {index : ClassIndex} {v : Literal} (hv : reference? v = none)
    (harray : isArrayLiteral v = false) : ¬ IsArrayIn index v := by
  intro h
  cases h with
  | array entries => cases harray
  | followed hv' _ _ => cases hv.symm.trans hv'

/-- What constant expressions are taken for. -/
inductive Spelled (index : ClassIndex) : Literal → Prop
  | scalar {v : Literal} {t : String} : scalarText? v = some t → Spelled index v
  | source {s : String} {w : Written} : w.Proper → w.text = Utf8.bytesOf s → Spelled index (.expr s)
  | reference {v : Literal} {c n : String} : reference? v = some (c, n) → Named c n → Spelled index v
  | unary {op : Char} {v : Literal} : IsUnary op → Spelled index v → ¬ IsArrayIn index v →
      Spelled index (.unary op v)
  | binary {op : String} {l r : Literal} : IsBinary op → Spelled index l → Spelled index r →
      ¬ IsArrayIn index l → ¬ IsArrayIn index r → Spelled index (.binary op l r)
  | array {entries : List ArrayEntry} :
      (∀ entry ∈ entries, ∀ k, entry.key? = some k → Spelled index k) →
      (∀ entry ∈ entries, ∀ k, entry.key? = some k → ¬ IsArrayIn index k) →
      (∀ entry ∈ entries, Spelled index entry.value) → Spelled index (.array entries)

variable {index : ClassIndex} {budget : Nat} {v w : Literal}

theorem references_of_mem_entries {entries : List ArrayEntry} {entry : ArrayEntry} (h : entry ∈ entries)
    (hw : w ∈ entry.parts) : w.references ⊆ (Literal.array entries).references := by
  rw [Literal.references]
  induction entries with
  | nil => cases h
  | cons e entries ih =>
    rcases List.mem_cons.1 h with rfl | hrest
    · intro r hr
      cases entry with
      | item value =>
        obtain rfl : w = value := by simpa using hw
        exact List.mem_append_left _ hr
      | pair key value =>
        rcases List.mem_pair.1 hw with rfl | rfl
        · exact List.mem_append_left _ (List.mem_append_left _ hr)
        · exact List.mem_append_left _ (List.mem_append_right _ hr)
    · intro r hr
      cases e <;> exact List.mem_append_right _ (ih hrest hr)

/-- What a part of an expression refers to, the expression refers to. -/
theorem references_of_mem_parts (h : w ∈ v.parts) : w.references ⊆ v.references := by
  cases v with
  | array entries =>
    obtain ⟨entry, hentry, hw⟩ := List.mem_flatMap.1 h
    exact references_of_mem_entries hentry hw
  | binary op l r =>
    rw [Literal.references]
    rcases List.mem_pair.1 h with rfl | rfl
    · exact List.subset_append_left _ _
    · exact List.subset_append_right _ _
  | unary op v =>
    obtain rfl := List.mem_singleton.1 h
    exact fun r hr => hr
  | _ => cases h

/-- The definitions that an expression refers to are written with one reference less to follow, those that
are arrays as arrays. -/
def Defined (index : ClassIndex) (budget : Nat) (v : Literal) : Prop :=
  ∀ r ∈ v.references, ∀ d, index.constant? r.cls r.name = some d → ∀ below, budget = below + 1 →
    Nested index below d ∧ (¬ IsArrayIn index d → ∃ w, Writes index below d w)

theorem Defined.part (h : Defined index budget v) (hw : w ∈ v.parts) : Defined index budget w :=
  fun r hr => h r (references_of_mem_parts hw hr)

/-- A reference is written by its name or as its definition. -/
theorem nested_reference {c n : String} (hv : reference? v = some (c, n)) (hnamed : Named c n)
    (h : Defined index budget v) :
    Nested index budget v ∧ (¬ IsArrayIn index v → ∃ w, Writes index budget v w) := by
  obtain ⟨r, hr, hcls, hname⟩ : ∃ r ∈ v.references, r.cls = c ∧ r.name = n := by
    cases v with
    | classConst c' n' =>
      cases hv
      exact ⟨_, List.mem_singleton_self _, rfl, rfl⟩
    | lateStatic c' n' =>
      cases hv
      exact ⟨_, List.mem_singleton_self _, rfl, rfl⟩
    | _ => cases hv
  subst hcls hname
  cases budget with
  | zero => exact ⟨.flat (.unfollowed hv hnamed (.inl rfl)), fun _ => ⟨_, .unfollowed hv hnamed (.inl rfl)⟩⟩
  | succ below =>
    cases hd : index.constant? r.cls r.name with
    | none =>
      exact ⟨.flat (.unfollowed hv hnamed (.inr hd)), fun _ => ⟨_, .unfollowed hv hnamed (.inr hd)⟩⟩
    | some d =>
      obtain ⟨hnested, hflat⟩ := h r hr d hd below rfl
      refine ⟨.followed hv hd hnested, fun harray => ?_⟩
      obtain ⟨w, hw⟩ := hflat fun hd' => harray (.followed hv hd hd')
      exact ⟨w, .followed hv hd hw⟩

/-- What is spelled is written if the definitions are that it refers to. -/
theorem Spelled.nested_of_defined (h : Spelled index v) (hdefined : Defined index budget v) :
    Nested index budget v ∧ (¬ IsArrayIn index v → ∃ w, Writes index budget v w) := by
  have hflat : ∀ {v w}, Writes index budget v w →
      Nested index budget v ∧ (¬ IsArrayIn index v → ∃ w, Writes index budget v w) :=
    fun h => ⟨.flat h, fun _ => ⟨_, h⟩⟩
  induction h with
  | scalar ht => exact hflat (.scalar ht)
  | source hw htext => exact hflat (.source hw htext)
  | reference hv hnamed => exact nested_reference hv hnamed hdefined
  | unary hop _ harray ih =>
    obtain ⟨w, hw⟩ := (ih (hdefined.part (List.mem_singleton_self _))).2 harray
    exact hflat (.unary hop hw)
  | binary hop _ _ hl hr ihl ihr =>
    obtain ⟨left, hleft⟩ := (ihl (hdefined.part (List.mem_cons_self))).2 hl
    obtain ⟨right, hright⟩ := (ihr (hdefined.part (List.mem_cons_of_mem _ (List.mem_singleton_self _)))).2 hr
    exact hflat (.binary hop hleft hright)
  | array _ hkeys _ ihkeys ihvalues =>
    refine ⟨.array (fun entry hentry k hk => ?_) fun w hw => ?_, fun harray => absurd (.array _) harray⟩
    · exact (ihkeys entry hentry k hk (hdefined.part (key_mem_parts hentry hk))).2 (hkeys entry hentry k hk)
    · have hpart := hw.mem_parts
      obtain ⟨entry, hentry, rfl⟩ := hw.exists_entry
      exact (ihvalues entry hentry (hdefined.part hpart)).1

/-- Where all is spelled that an expression leads to, it is written, however many references are followed. -/
theorem Spelled.nested (h : ∀ u, index.Leads v u → Spelled index u) (budget : Nat) :
    Nested index budget v ∧ (¬ IsArrayIn index v → ∃ w, Writes index budget v w) := by
  induction budget generalizing v with
  | zero => exact (h v (.refl v)).nested_of_defined fun _ _ _ _ _ hbelow => by cases hbelow
  | succ budget ih =>
    refine (h v (.refl v)).nested_of_defined fun r hr d hd below hbelow => ?_
    cases hbelow
    exact ih fun u hu => h u (.step hr hd hu)

end Export

/-! ## The syntax of constants -/

namespace Php

/-- The expressions of a source whose constants are spelled. An operand that is kept as source text may be
any operation on names of constants and new objects without arguments. -/
inductive ConstantExpression (index : ClassIndex) (source : Bytes) (scope : ClassScope) : Node → Prop
  | scalar {n : Node} : (scalarText? (constantOf source scope n)).isSome = true →
      ConstantExpression index source scope n
  | reference {n : Node} {c m : String} : reference? (constantOf source scope n) = some (c, m) → Named c m →
      ConstantExpression index source scope n
  | kept {n : Node} {p : Written} : n.WrittenAs source p → p.Formed → p.IsText →
      (∀ m ∈ n.operands, m.IsKept source scope) → ConstantExpression index source scope n
  | parenthesized {start stop : Nat} {x : Node} : ConstantExpression index source scope x →
      ConstantExpression index source scope (.mk .parenthesized start stop [x])
  | sign {start stop : Nat} {x : Node} : ConstantExpression index source scope x →
      ¬ IsArrayIn index (constantOf source scope x) →
      (constantOf source scope (.mk .unaryOperation start stop [x])).isExpr = false →
      ConstantExpression index source scope (.mk .unaryOperation start stop [x])
  | binary {start stop : Nat} {left op right : Node} : IsBinary (lowerCase (op.text source)) →
      ConstantExpression index source scope left → ConstantExpression index source scope right →
      ¬ IsArrayIn index (constantOf source scope left) → ¬ IsArrayIn index (constantOf source scope right) →
      (constantOf source scope (.mk .binaryOperation start stop [left, op, right])).isExpr = false →
      ConstantExpression index source scope (.mk .binaryOperation start stop [left, op, right])
  | array {kind : Kind} {start stop : Nat} {elements : List Node} {entries : List ArrayEntry} :
      kind = .arrayCreation ∨ kind = .longArray → arrayEntries? source scope elements = some entries →
      (∀ element ∈ elements, ∀ m ∈ element.children, ConstantExpression index source scope m) →
      (∀ entry ∈ entries, ∀ k, entry.key? = some k → ¬ IsArrayIn index k) →
      ConstantExpression index source scope (.mk kind start stop elements)

variable {index : ClassIndex} {source : Bytes} {scope : ClassScope} {n : Node}

/-- What a sign makes of a constant is a number, or the constant behind the sign. -/
theorem spelled_signedConstant {sign : Option Char} {v u : Literal} (h : signedConstant? sign v = some u)
    (hv : Spelled index v) (harray : ¬ IsArrayIn index v) : Spelled index u := by
  unfold signedConstant? at h
  split at h
  · obtain ⟨i, -, rfl⟩ := Option.map_eq_some_iff.1 h
    exact .scalar rfl
  · cases h
    exact .scalar rfl
  · cases h
    exact .scalar rfl
  · cases h
    exact .scalar rfl
  · cases h
  · rename_i op _ _ _ _ _ _
    split at h
    · rename_i hop
      cases h
      refine .unary ?_ hv harray
      simpa [IsUnary, or_assoc, or_comm, or_left_comm] using hop
    · cases h
  · cases h

/-- The keys and values of an array are the constants of what its elements hold. -/
theorem constant_of_mem_arrayEntries? : ∀ {elements : List Node} {entries : List ArrayEntry},
    arrayEntries? source scope elements = some entries → ∀ entry ∈ entries, ∀ v ∈ entry.parts,
      ∃ element ∈ elements, ∃ m ∈ element.children, v = constantOf source scope m
  | [], _, h, entry, hentry, _, _ => by
    rw [arrayEntries?] at h
    cases h
    cases hentry
  | .mk kind start stop [value] :: rest, entries, h, entry, hentry, v, hv => by
    rw [arrayEntries?] at h
    split at h
    · cases h
    · obtain ⟨later, hlater, rfl⟩ := Option.map_eq_some_iff.1 h
      rcases List.mem_cons.1 hentry with rfl | hentry
      · obtain rfl := List.mem_singleton.1 hv
        exact ⟨_, List.mem_cons_self, value, List.mem_cons_self, rfl⟩
      · obtain ⟨element, helement, hm⟩ := constant_of_mem_arrayEntries? hlater entry hentry v hv
        exact ⟨element, List.mem_cons_of_mem _ helement, hm⟩
  | .mk kind start stop [key, value] :: rest, entries, h, entry, hentry, v, hv => by
    rw [arrayEntries?] at h
    split at h
    · cases h
    · obtain ⟨later, hlater, rfl⟩ := Option.map_eq_some_iff.1 h
      rcases List.mem_cons.1 hentry with rfl | hentry
      · rcases List.mem_pair.1 hv with rfl | rfl
        · exact ⟨_, List.mem_cons_self, key, List.mem_cons_self, rfl⟩
        · exact ⟨_, List.mem_cons_self, value, List.mem_cons_of_mem _ List.mem_cons_self, rfl⟩
      · obtain ⟨element, helement, hm⟩ := constant_of_mem_arrayEntries? hlater entry hentry v hv
        exact ⟨element, List.mem_cons_of_mem _ helement, hm⟩
  | .mk _ _ _ [] :: _, _, h, _, _, _, _ => by
    rw [arrayEntries?] at h
    cases h
    all_goals simp
  | .mk _ _ _ (_ :: _ :: _ :: _) :: _, _, h, _, _, _, _ => by
    rw [arrayEntries?] at h
    cases h
    all_goals simp

namespace ConstantExpression

/-- What a constant expression is taken for is spelled. -/
theorem spelled (h : ConstantExpression index source scope n) (ho : n.IsOrderly) :
    Spelled index (constantOf source scope n) := by
  induction h with
  | scalar hscalar =>
    obtain ⟨t, ht⟩ := Option.isSome_iff_exists.1 hscalar
    exact .scalar ht
  | reference hv hnamed => exact .reference hv hnamed
  | kept hn hp ht hoperands =>
    obtain ⟨s, w, hconst, hw, htext⟩ := SourceExpr.exists_proper_kept hn hp ht ho hoperands
    exact hconst ▸ .source hw htext
  | @parenthesized start stop x _ ih =>
    rw [constantOf]
    exact ih ((Node.isOrderly_iff.1 ho).isOrderly List.mem_cons_self)
  | @sign start stop x _ harray hexpr ih =>
    have hx := ih ((Node.isOrderly_iff.1 ho).isOrderly List.mem_cons_self)
    rw [constantOf] at hexpr ⊢
    generalize hsigned : signedConstant? _ _ = signed at hexpr ⊢
    cases signed with
    | none => cases hexpr
    | some u => exact spelled_signedConstant hsigned hx harray
  | @binary start stop left op right hop _ _ hl hr hexpr ihl ihr =>
    have horder := Node.isOrderly_iff.1 ho
    have hleft := ihl (horder.isOrderly List.mem_cons_self)
    have hright := ihr (horder.isOrderly
      (List.mem_cons_of_mem _ (List.mem_cons_of_mem _ List.mem_cons_self)))
    rw [constantOf] at hexpr ⊢
    dsimp only at hexpr ⊢
    split at hexpr
    · cases hexpr
    · rename_i hboth
      rw [if_neg hboth]
      exact .binary hop hleft hright hl hr
  | @array kind start stop elements entries hkind hentries _ hkeys ih =>
    have hparts : ∀ entry ∈ entries, ∀ v ∈ entry.parts, Spelled index v := by
      intro entry hentry v hv
      obtain ⟨element, helement, m, hm, rfl⟩ := constant_of_mem_arrayEntries? hentries entry hentry v hv
      have horderly : element.IsOrderly := (Node.isOrderly_iff.1 ho).isOrderly helement
      exact ih element helement m hm ((Node.isOrderly_iff.1 horderly).isOrderly hm)
    have hconst : constantOf source scope (.mk kind start stop elements) = .array entries := by
      rcases hkind with rfl | rfl <;> (rw [constantOf]; simp [hentries])
    rw [hconst]
    refine .array (fun entry hentry k hk => hparts entry hentry k ?_) hkeys fun entry hentry =>
      hparts entry hentry _ ?_
    · simp [ArrayEntry.parts, hk]
    · simp [ArrayEntry.parts]

end ConstantExpression

end Php

end FacadeStubs
