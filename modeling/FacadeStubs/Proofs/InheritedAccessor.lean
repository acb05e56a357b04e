import FacadeStubs.Proofs.Keys
import FacadeStubs.Proofs.MethodTable
import FacadeStubs.Proofs.Supertypes

/-!
# Inherited methods and accessors

A class that provides no method of a name itself has that of its parent. If the method is the accessor of
a facade, its expression is evaluated with late static references bound to the class that is called. An
expression without such references has the same key for every class that inherits it.

Results:
* `exists_chain_parent`: the chain of a class is the class and the chain of its parent, up to the class.
* `findMethod?_inherited`: a method that a class does not provide itself is that of its parent.
* `key?_called`: the class that is called matters only for late static references.
* `inherited_accessor`: the key of an inherited accessor.
-/
namespace FacadeStubs

namespace ClassIndex

/-! ## The chain of a parent -/

section
variable {index : ClassIndex}

/-- A chain that may not meet one key more ends in front of it. Where a class of this key leads to one
that was met, the longer chain ends behind it. -/
theorem climb_snoc {k : String} (fuel : Nat) {seen : List String} (name : String)
    (hback : ∀ p q, classKey p = k → index.parent? p = some q → classKey q ∈ seen) :
    ∃ rest, index.climb fuel seen name = index.climb fuel (seen ++ [k]) name ++ rest ∧
      ∀ p ∈ rest, classKey p = k := by
  induction fuel generalizing seen name with
  | zero => exact ⟨[], rfl, nofun⟩
  | succ fuel ih =>
    simp only [climb]
    cases hp : index.parent? name with
    | none => exact ⟨[], rfl, nofun⟩
    | some p =>
      by_cases hseen : classKey p ∈ seen
      · exact ⟨[], by simp [hseen], nofun⟩
      by_cases hk : classKey p = k
      · have hlast : index.climb fuel (classKey p :: seen) p = [] := by
          cases fuel with
          | zero => rfl
          | succ fuel =>
            rw [climb]
            split
            · rfl
            · rename_i q hq
              simp [hback p q hk hq]
        have hmet : classKey p ∈ seen ++ [k] := List.mem_append_right _ (List.mem_singleton.2 hk)
        refine ⟨[p], ?_, fun q hq => List.mem_singleton.1 hq ▸ hk⟩
        dsimp only
        rw [if_neg (by simpa using hseen), if_pos (by simpa using hmet), hlast]
        rfl
      · have hback' : ∀ a q, classKey a = k → index.parent? a = some q →
            classKey q ∈ classKey p :: seen := fun a q ha hq =>
          List.mem_cons_of_mem _ (hback a q ha hq)
        obtain ⟨rest, hrest, hkeys⟩ := ih p hback'
        exact ⟨rest, by simp [hseen, hk, hrest], hkeys⟩

/-- The parents of a class and of its parent. -/
theorem exists_ancestors_parent {name B : String} (hB : index.parent? name = some B)
    (hne : classKey B ≠ classKey name) :
    ∃ above rest, index.ancestors name = B :: above ∧ index.ancestors B = above ++ rest ∧
      ∀ p ∈ rest, classKey p = classKey name := by
  have hname : index.ancestors name = B :: index.climb index.size [classKey B, classKey name] B := by
    rw [← ancestors_eq index name (Nat.le_succ _), climb, hB]
    simp [hne]
  have hback : ∀ p q, classKey p = classKey name → index.parent? p = some q →
      classKey q ∈ [classKey B] := by
    intro p q hp hq
    rw [parent?_congr index hp, hB] at hq
    cases hq
    exact List.mem_singleton_self _
  obtain ⟨rest, hrest, hkeys⟩ := climb_snoc index.size B hback
  exact ⟨_, rest, hname, hrest, hkeys⟩

theorem chain_of_classKey {a b : String} (h : classKey a = classKey b) :
    index.chain a = index.chain b := by
  have hancestors : index.ancestors a = index.ancestors b := by
    unfold ancestors
    rw [h]
    cases index.size with
    | zero => rfl
    | succ fuel => rw [climb, climb, parent?_congr index h]
  have hget := get?_congr index h
  have hcontains : index.contains a = index.contains b := by rw [contains, contains, hget]
  unfold chain
  rw [hancestors, List.takeWhile_cons, List.takeWhile_cons, hcontains]
  split
  · rw [List.filterMap_cons, List.filterMap_cons, hget]
  · rfl

theorem exists_takeWhile_append {α : Type} (p : α → Bool) (front back : List α) :
    ∃ rest, (front ++ back).takeWhile p = front.takeWhile p ++ rest ∧ rest ⊆ back := by
  induction front with
  | nil => exact ⟨_, rfl, (List.takeWhile_sublist p).subset⟩
  | cons a front ih =>
    obtain ⟨rest, hrest, hsub⟩ := ih
    rw [List.cons_append, List.takeWhile_cons, List.takeWhile_cons]
    split
    · exact ⟨rest, by rw [hrest, List.cons_append], hsub⟩
    · exact ⟨[], rfl, List.nil_subset _⟩

/-- The chain of a class is the class and the chain of its parent, up to where it comes back. -/
theorem exists_chain_parent {d : ClassDecl} {B : String} (hd : index.get? d.fqn = some d)
    (hB : index.parent? d.fqn = some B) (hne : classKey B ≠ classKey d.fqn) :
    ∃ above rest, index.chain d.fqn = d :: above ∧ index.chain B = above ++ rest ∧
      ∀ c ∈ rest, c = d := by
  obtain ⟨above, back, hname, hparent, hkeys⟩ := exists_ancestors_parent hB hne
  obtain ⟨rest, hrest, hsub⟩ := exists_takeWhile_append index.contains (B :: above) back
  have hcontains : index.contains d.fqn = true := by rw [contains, hd]; rfl
  refine ⟨((B :: above).takeWhile index.contains).filterMap index.get?, rest.filterMap index.get?,
    ?_, ?_, fun c hc => ?_⟩
  · rw [chain, hname, List.takeWhile_cons_of_pos hcontains, List.filterMap_cons_some hd]
  · rw [chain, hparent, ← List.cons_append, hrest, List.filterMap_append]
  · obtain ⟨p, hp, hc⟩ := List.mem_filterMap.1 hc
    rw [get?_congr index (hkeys p (hsub hp)), hd] at hc
    exact (Option.some.inj hc).symm

/-- A method that a class does not provide itself is that of its parent. -/
theorem findMethod?_inherited {d : ClassDecl} {B n : String} (hd : index.get? d.fqn = some d)
    (hB : index.parent? d.fqn = some B) (hnone : ∀ m, index.Provides d m → ¬Named n m) :
    index.findMethod? d.fqn n = index.findMethod? B n := by
  rw [findMethod?_eq, findMethod?_eq]
  by_cases hkey : classKey B = classKey d.fqn
  · rw [chain_of_classKey hkey]
  obtain ⟨above, rest, hchain, hparent, hself⟩ := exists_chain_parent hd hB hkey
  have hown : (index.contributed d).find? (fun m => sameIgnoringCase m.name n) = none :=
    find?_named_eq_none fun m hm => hnone m (mem_contributed_iff.1 hm)
  have hback : (rest.flatMap index.contributed).find? (fun m => sameIgnoringCase m.name n) = none := by
    refine find?_named_eq_none fun m hm => ?_
    obtain ⟨c, hc, hm⟩ := List.mem_flatMap.1 hm
    obtain rfl := hself c hc
    exact hnone m (mem_contributed_iff.1 hm)
  rw [hchain, hparent, List.flatMap_cons, List.flatMap_append, List.find?_append, List.find?_append,
    hown, hback, Option.none_or, Option.or_none]

end

end ClassIndex

/-! ## Expressions without late static references -/

/-- An expression no part of which refers to a constant of the class that is called. -/
def Literal.LateFree (v : Literal) : Prop := ∀ r ∈ v.references, r.late = false

instance (v : Literal) : Decidable v.LateFree :=
  inferInstanceAs (Decidable (∀ r ∈ v.references, r.late = false))

namespace Facade

open Export ClassIndex

section
variable {index : ClassIndex}

/-- The class that is called matters only for late static references. -/
theorem keyWith_called {follow follow' : String → String → Option String} (called called' : String) :
    ∀ {v : Literal}, v.LateFree →
      (∀ r ∈ v.references, follow r.cls r.name = follow' r.cls r.name) →
        keyWith follow called v = keyWith follow' called' v
  | .str _, _, _ | .int _, _, _ | .null, _, _ | .bool _, _, _ | .float _, _, _ | .array _, _, _
  | .unary _ _, _, _ | .expr _, _, _ => by simp only [keyWith]
  | .classConst c n, _, hfollow => hfollow ⟨false, c, n⟩ (List.mem_singleton_self _)
  | .lateStatic c n, hfree, _ => nomatch hfree ⟨true, c, n⟩ (List.mem_singleton_self _)
  | .binary op l r, hfree, hfollow => by
    have hl := keyWith_called called called' (v := l)
      (fun ref href => hfree ref (List.mem_append_left _ href))
      (fun ref href => hfollow ref (List.mem_append_left _ href))
    have hr := keyWith_called called called' (v := r)
      (fun ref href => hfree ref (List.mem_append_right _ href))
      (fun ref href => hfollow ref (List.mem_append_right _ href))
    simp only [keyWith, hl, hr]

theorem key?_called (called called' : String) (budget : Nat) {v : Literal}
    (hfree : ∀ u, index.Leads v u → u.LateFree) :
    key? index called budget v = key? index called' budget v := by
  induction budget generalizing v with
  | zero => exact keyWith_called called called' (hfree v (.refl v)) fun _ _ => rfl
  | succ budget ih =>
    refine keyWith_called called called' (hfree v (.refl v)) fun r hr => ?_
    cases hw : index.constant? r.cls r.name with
    | none => rfl
    | some w => exact ih fun u hu => hfree u (.step hr hw hu)

/-! ## Accessors -/

/-- The key of a class is its accessor's expression, evaluated for the class. -/
theorem accessorKey_eq_ok_iff {d : ClassDecl} {key : String} :
    accessorKey index d = .ok key ↔ ∃ m v, index.findMethod? d.fqn accessorMethod = some m ∧
      m.isStatic = true ∧ m.constantReturn = some v ∧ key? index d.fqn maxDepth v = some key := by
  have hkey : accessorKey index d = .ok key ↔ ((index.findMethod? d.fqn accessorMethod).bind fun m =>
      if m.isStatic then m.constantReturn.bind (key? index d.fqn maxDepth) else none) = some key := by
    unfold accessorKey
    dsimp only
    split
    · rename_i k hk
      rw [hk, Except.ok.injEq, Option.some.injEq]
    · rename_i hnone
      simp [hnone]
  rw [hkey, Option.bind_eq_some_iff]
  constructor
  · rintro ⟨m, hm, hreturn⟩
    split at hreturn
    · rename_i hstatic
      obtain ⟨v, hv, hvalue⟩ := Option.bind_eq_some_iff.1 hreturn
      exact ⟨m, v, hm, hstatic, hv, hvalue⟩
    · cases hreturn
  · rintro ⟨m, v, hm, hstatic, hv, hvalue⟩
    exact ⟨m, hm, by rw [if_pos hstatic, hv, Option.bind_some, hvalue]⟩

/-- A class that does not provide the accessor has the one of its parent. Its key is the expression that
this returns, evaluated with late static references bound to the class. If there are none in the
expression and in the constants that it leads to, the class has the key of its parent. -/
theorem inherited_accessor {d e : ClassDecl} {B : String} (hd : index.get? d.fqn = some d)
    (hkind : d.kind = .cls) (hparent : d.extendsNames.head? = some B) (he : index.get? B = some e)
    (hnone : ∀ m, index.Provides d m → ¬Named accessorMethod m) :
    index.findMethod? d.fqn accessorMethod = index.findMethod? B accessorMethod ∧
    (∀ key, accessorKey index d = .ok key ↔
      ∃ m v, index.findMethod? B accessorMethod = some m ∧ m.isStatic = true ∧
        m.constantReturn = some v ∧ key? index d.fqn maxDepth v = some key) ∧
    ((∀ m v, index.findMethod? B accessorMethod = some m → m.constantReturn = some v →
        ∀ u, index.Leads v u → u.LateFree) →
      ∀ key, accessorKey index d = .ok key ↔ accessorKey index e = .ok key) := by
  have hB : index.parent? d.fqn = some B := parent?_eq_some_iff.2 ⟨d, hd, hkind, hparent⟩
  have hmethod := findMethod?_inherited hd hB hnone
  have hbase : index.findMethod? e.fqn accessorMethod = index.findMethod? B accessorMethod := by
    rw [findMethod?_eq, findMethod?_eq, chain_of_classKey (classKey_of_get? he)]
  refine ⟨hmethod, fun key => by rw [accessorKey_eq_ok_iff, hmethod], fun hfree key => ?_⟩
  rw [accessorKey_eq_ok_iff, accessorKey_eq_ok_iff, hmethod, hbase]
  constructor
  · rintro ⟨m, v, hm, hstatic, hv, hkey⟩
    exact ⟨m, v, hm, hstatic, hv, key?_called d.fqn e.fqn maxDepth (hfree m v hm hv) ▸ hkey⟩
  · rintro ⟨m, v, hm, hstatic, hv, hkey⟩
    exact ⟨m, v, hm, hstatic, hv, key?_called e.fqn d.fqn maxDepth (hfree m v hm hv) ▸ hkey⟩

end

/-- The accessor of a base class, by a constant of this class or of the class that is called. -/
def baseAccessor (v : Literal) : Method :=
  { name := accessorMethod, isStatic := true, constantReturn := some v }

/-- A base class and a class that overrides the constant of it. -/
def overridingIndex (v : Literal) : ClassIndex where
  decls :=
    [{ name := "Base", constants := [("KEY", .str "base")], methods := [baseAccessor v] },
     { name := "Front", extendsNames := ["base"], constants := [("KEY", .str "front")] }]
  distinct := by
    have hkeys : classKey "Base" ≠ classKey "Front" := by decide +kernel
    simpa [ClassDecl.fqn, qualifiedName] using hkeys

/-- The class of the index that extends the base class. -/
def overridingClass : ClassDecl :=
  { name := "Front", extendsNames := ["base"], constants := [("KEY", .str "front")] }

theorem provides_overriding (index : ClassIndex) (m : Method) : ¬index.Provides overridingClass m := by
  rintro (hown | ⟨t, -, ht, -⟩)
  · cases hown
  · induction ht with
    | start ht => cases ht
    | step _ _ ih => exact ih

theorem leads_overriding {u : Literal} (h : (overridingIndex (.classConst "Base" "KEY")).Leads
    (.classConst "Base" "KEY") u) : u.LateFree := by
  cases h with
  | refl => decide
  | step hr hw hu =>
    obtain rfl := List.mem_singleton.1 hr
    obtain rfl := Option.some.inj hw
    cases hu with
    | refl => decide
    | step hr _ _ => cases hr

/-- A class that overrides the constant of its parent has the key of the parent. -/
theorem inherited_accessor_overridden :
    accessorKey (overridingIndex (.classConst "Base" "KEY")) overridingClass = .ok "base" := by
  have hfree : ∀ m v, (overridingIndex (.classConst "Base" "KEY")).findMethod? "base" accessorMethod =
      some m → m.constantReturn = some v →
      ∀ u, (overridingIndex (.classConst "Base" "KEY")).Leads v u → u.LateFree := by
    intro m v hm hv u hu
    obtain rfl := Option.some.inj hm
    obtain rfl := Option.some.inj hv
    exact leads_overriding hu
  have hbase : (overridingIndex (.classConst "Base" "KEY")).get? "base" =
      some { name := "Base", constants := [("KEY", .str "base")],
             methods := [baseAccessor (.classConst "Base" "KEY")] } := rfl
  have hself : (overridingIndex (.classConst "Base" "KEY")).get? overridingClass.fqn =
      some overridingClass := rfl
  have hsame := (inherited_accessor hself rfl rfl hbase
    fun m hm => absurd hm (provides_overriding _ m)).2.2 hfree
  exact (hsame "base").2 rfl

example : (overridingIndex (.lateStatic "Base" "KEY")).decls.map
    (accessorKey (overridingIndex (.lateStatic "Base" "KEY"))) = [.ok "base", .ok "front"] := by
  rfl

end Facade

end FacadeStubs
