import FacadeStubs.Proofs.MissingNames
import FacadeStubs.Stub.Basic

/-!
# The methods of an interface

An interface may extend any number of interfaces, and what these declare can be called on it.
`Inherits` says which methods that are: those of every indexed interface that interface steps lead to,
itself among them. The method table is built along the chain of parents, and only classes have parents.
So the table of an interface holds what the interface provides itself and nothing from above it.

* `chain_interface`: the chain of an interface is the interface alone;
* `exists_named_interface_iff`: which names its table has;
* `Inherits.known`: every inherited method is declared by the interface or by one of those that
  `interfaces` lists for it;
* `interface_table_exact`: the table has all that is inherited exactly if the interface provides a
  method of each inherited name, and what it lacks is not among the missing names;
* `extended_method_missing`: an interface whose table lacks a method.
-/
namespace FacadeStubs.ClassIndex

open Relation

/-- A method that an interface declares or inherits: one declared by an indexed interface that any
number of interface steps lead to. -/
def Inherits (index : ClassIndex) (name : String) (m : Method) : Prop :=
  ∃ i e, ReflTransGen index.InterfaceStep name i ∧ index.get? i = some e ∧ e.kind = .interface ∧
    m ∈ e.methods

section Interface

variable {index : ClassIndex} {name : String} {d : ClassDecl}

theorem ancestors_interface (h : index.get? name = some d) (hk : d.kind = .interface) :
    index.ancestors name = [] := by
  have hparent : index.parent? name = none := by simp [parent?, h, hk]
  unfold ancestors
  cases index.size with
  | zero => rfl
  | succ n => simp [climb, hparent]

theorem chain_interface (h : index.get? name = some d) (hk : d.kind = .interface) :
    index.chain name = [d] := by
  simp [chain, ancestors_interface h hk, contains, h]

/-- The names in the table of an interface are those of the methods that it provides itself. -/
theorem exists_named_interface_iff (h : index.get? name = some d) (hk : d.kind = .interface)
    (n : String) :
    (∃ m ∈ index.methodsOf name, Named n m) ↔ ∃ m, index.Provides d m ∧ Named n m := by
  rw [exists_named_iff, chain_interface h hk]
  simp only [List.mem_singleton, exists_eq_left]

/-- An inherited method is declared by the interface, or by one of those that are listed for it. -/
theorem Inherits.known (h : index.get? name = some d) (hk : d.kind = .interface) {m : Method}
    (hm : index.Inherits name m) :
    m ∈ d.methods ∨ ∃ i ∈ index.interfaces name, ∃ e, index.get? i = some e ∧ m ∈ e.methods := by
  obtain ⟨i, e, hreach, he, -, hm⟩ := hm
  rcases hreach.cases_head with rfl | ⟨s, ⟨d', hd', hs⟩, hrest⟩
  · rw [h, Option.some.injEq] at he
    exact Or.inl (he ▸ hm)
  · rw [h, Option.some.injEq] at hd'
    subst hd'
    have hhas : index.HasInterface name i := ⟨s, Or.inr ⟨d, h, hk, hs⟩, hrest⟩
    obtain ⟨j, hj, hkey⟩ := (interfaces_iff index name i).mpr ⟨i, hhas, rfl⟩
    exact Or.inr ⟨j, hj, e, (get?_congr index hkey).trans he, hm⟩

theorem unindexedSupertypes_interface (h : index.get? name = some d) (hk : d.kind = .interface) :
    index.unindexedSupertypes name = d.traits.filter (!index.contains ·) := by
  simp [unindexedSupertypes, ancestors_interface h hk, missingAlong, h]

end Interface

/-- What can be called on an interface. Its table has, by name, every method that it inherits exactly
if it provides a method of each such name itself: the names in the table are those of its own methods
and of its traits, whatever it extends. So the stub of a facade whose service is the interface forwards
nothing else. Yet all that it inherits is declared by itself or by an interface that the index lists
for it, and what the table lacks is not reported: the names that are listed as missing are traits of the
interface. -/
theorem interface_table_exact (index : ClassIndex) (name : String) (d : ClassDecl)
    (h : index.get? name = some d) (hk : d.kind = .interface) :
    ((∀ m, index.Inherits name m → ∃ m' ∈ index.methodsOf name, Named m.name m') ↔
      ∀ m, index.Inherits name m → ∃ m', index.Provides d m' ∧ Named m.name m') ∧
    (∀ n, (∃ m ∈ index.methodsOf name, Named n m) ↔ ∃ m, index.Provides d m ∧ Named n m) ∧
    (∀ ns short, ∀ s ∈ (StubClass.build ns short name index).methods,
      ∃ m, index.Provides d m ∧ Named s.name m) ∧
    (∀ m, index.Inherits name m → m ∈ d.methods ∨
      ∃ i ∈ index.interfaces name, ∃ e, index.get? i = some e ∧ m ∈ e.methods) ∧
    (∀ t ∈ index.unindexedSupertypes name, t ∈ d.traits ∧ index.get? t = none) := by
  have hnames := exists_named_interface_iff h hk
  refine ⟨?_, hnames, fun ns short s hs => ?_, fun m hm => hm.known h hk, fun t ht => ?_⟩
  · exact forall_congr' fun m => imp_congr_right fun _ => hnames m.name
  · obtain ⟨m, hm, rfl⟩ := List.mem_map.mp hs
    exact (hnames m.name).mp ⟨m, (List.mem_filter.mp hm).1, rfl⟩
  · rw [unindexedSupertypes_interface h hk] at ht
    simpa [contains] using ht

/-- Two interfaces that extend each other, one of them with a method. -/
def mutualIndex : ClassIndex where
  decls :=
    [{ kind := .interface, name := "I", extendsNames := ["J"] },
      { kind := .interface, name := "J", extendsNames := ["I"], methods := [{ name := "f" }] }]

theorem interface_table_exact_mutual :
    (∃ d, mutualIndex.get? "J" = some d ∧ d.kind = .interface) ∧
    ∀ m, mutualIndex.Inherits "J" m → ∃ m' ∈ mutualIndex.methodsOf "J", Named m.name m' := by
  have hget : mutualIndex.get? "J" = some
      { kind := .interface, name := "J", extendsNames := ["I"], methods := [{ name := "f" }] } := rfl
  refine ⟨⟨_, hget, rfl⟩, (interface_table_exact mutualIndex "J" _ hget rfl).1.mpr ?_⟩
  rintro m ⟨i, e, -, he, -, hm⟩
  have hdecl := mem_decls_of_get? he
  simp only [mutualIndex, List.mem_cons, List.not_mem_nil, or_false] at hdecl
  rcases hdecl with rfl | rfl
  · cases hm
  · exact ⟨m, Or.inl hm, rfl⟩

/-- An interface inherits a method that its table lacks. -/
theorem extended_method_missing :
    ∃ m, mutualIndex.Inherits "I" m ∧ mutualIndex.methodsOf "I" = [] := by
  have hstep : mutualIndex.InterfaceStep "I" "J" := ⟨_, rfl, List.mem_cons_self⟩
  exact ⟨_, ⟨"J", _, .single hstep, rfl, rfl, List.mem_cons_self⟩,
    List.eq_nil_of_length_eq_zero (by decide +kernel)⟩

end FacadeStubs.ClassIndex
