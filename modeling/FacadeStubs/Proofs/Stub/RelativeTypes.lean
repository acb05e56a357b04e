import FacadeStubs.Proofs.SelfBinding
import FacadeStubs.Proofs.Text.Words

/-!
# Relative types of a stub

The keywords `self`, `static` and `parent` name a class by the place where they stand. A stub stands
in no class of the service, so that a type of a service's method has to be bound to the service before
it is written. `TypeHint.boundTo` binds `self` and `static`, at any depth of a type. It has no class for
`parent`, which stays.

Results:
* `TypeHint.leaves_boundTo`: binding a type binds each of its leaves.
* `StubMethod.ofMethod_boundTo`: a stub is that of the method with its types bound, and a type that is
  bound is written the same for every service.
* `folded_of_method?`: the keywords of a method's types are in small letters.
* `relative_types_of_stub`: the types of a stub in an index of sources hold no keyword that depends on
  the class but `parent`, and that one exactly where the method declares it.
* `parent_reaches_stub`: a return type `?parent` that a stub takes over.
-/
namespace FacadeStubs

open Php Analysis ClassIndex

/-! ## Binding a type -/

namespace TypeHint

/-- The keywords whose class is that of the place where they stand. -/
def relativeWords : List String := ["self", "static", "parent"]

/-- Whether a type is a relative keyword, in any letter case. -/
def isRelative : TypeHint → Bool
  | builtin word => relativeWords.contains (lowerCase word)
  | _ => false

/-- The keywords and classes in a type, at any depth. -/
def leaves : TypeHint → List TypeHint
  | builtin word => [builtin word]
  | cls fqn => [cls fqn]
  | nullable inner => inner.leaves
  | union members => members.attach.flatMap fun ⟨m, _⟩ => m.leaves
  | intersection members => members.attach.flatMap fun ⟨m, _⟩ => m.leaves

/-- A type with a class for `self` and `static`, at any depth. -/
def boundTo (fqn : String) : TypeHint → TypeHint
  | builtin word => if word = "self" ∨ word = "static" then cls fqn else builtin word
  | cls own => cls own
  | nullable inner => nullable (inner.boundTo fqn)
  | union members => union (members.attach.map fun ⟨m, _⟩ => m.boundTo fqn)
  | intersection members => intersection (members.attach.map fun ⟨m, _⟩ => m.boundTo fqn)

variable {c fqn w : String} {members : List TypeHint} {t leaf : TypeHint}

theorem leaves_union : (union members).leaves = members.flatMap leaves := by
  simp [leaves, List.flatMap_def]

theorem leaves_intersection : (intersection members).leaves = members.flatMap leaves := by
  simp [leaves, List.flatMap_def]

theorem boundTo_union : (union members).boundTo fqn = union (members.map (boundTo fqn)) := by
  simp [boundTo]

theorem boundTo_intersection :
    (intersection members).boundTo fqn = intersection (members.map (boundTo fqn)) := by
  simp [boundTo]

theorem render_union (self : Option String) : (union members).render self =
    joined "|" (members.map fun m =>
      if m.isIntersection then "(" ++ m.render self ++ ")" else m.render self) := by
  simp [render]

theorem render_intersection (self : Option String) :
    (intersection members).render self = joined "&" (members.map (render self)) := by
  simp [render]

/-- What holds of keywords and classes, and of a type when it holds of its parts, holds of every
type. -/
theorem induction {P : TypeHint → Prop} (builtin : ∀ word, P (builtin word)) (cls : ∀ own, P (cls own))
    (nullable : ∀ inner, P inner → P (nullable inner))
    (union : ∀ members, (∀ m ∈ members, P m) → P (union members))
    (intersection : ∀ members, (∀ m ∈ members, P m) → P (intersection members)) : ∀ t, P t
  | .builtin word => builtin word
  | .cls own => cls own
  | .nullable inner => nullable inner (induction builtin cls nullable union intersection inner)
  | .union members =>
    union members fun m _ => induction builtin cls nullable union intersection m
  | .intersection members =>
    intersection members fun m _ => induction builtin cls nullable union intersection m

/-- The parentheses of an intersection stay where they are. -/
theorem isIntersection_boundTo : (t.boundTo fqn).isIntersection = t.isIntersection := by
  cases t with
  | builtin word =>
    rw [boundTo]
    split <;> rfl
  | cls own => rw [boundTo]
  | nullable inner =>
    rw [boundTo]
    rfl
  | union members =>
    rw [boundTo_union]
    rfl
  | intersection members =>
    rw [boundTo_intersection]
    rfl

/-- Binding a type binds each of its leaves. -/
theorem leaves_boundTo (fqn : String) (t : TypeHint) :
    (t.boundTo fqn).leaves = t.leaves.map (boundTo fqn) := by
  induction t using TypeHint.induction with
  | builtin word =>
    rw [leaves, List.map_singleton, boundTo]
    split <;> rw [leaves]
  | cls own => rw [boundTo, leaves, List.map_singleton, boundTo]
  | nullable inner ih => rw [boundTo, leaves, ih, leaves]
  | union members ih =>
    rw [boundTo_union, leaves_union, leaves_union, List.flatMap_map, List.map_flatMap]
    exact List.flatMap_congr ih
  | intersection members ih =>
    rw [boundTo_intersection, leaves_intersection, leaves_intersection, List.flatMap_map,
      List.map_flatMap]
    exact List.flatMap_congr ih

/-- Writing a type for a class is binding it to the class and then writing it as it is. -/
theorem render_eq_boundTo (fqn : String) (t : TypeHint) :
    t.render (some fqn) = (t.boundTo fqn).render none := by
  induction t using TypeHint.induction with
  | builtin word =>
    rw [boundTo, render, renderBuiltin]
    by_cases hself : word = "self" ∨ word = "static"
    · rw [if_pos hself, if_pos (by simpa using hself), render]
    · rw [if_neg hself, if_neg (by simpa using hself), render, renderBuiltin]
  | cls own => rw [boundTo, render, render]
  | nullable inner ih => rw [boundTo, render, render, ih]
  | union members ih =>
    rw [boundTo_union, render_union, render_union, List.map_map]
    refine congrArg _ (List.map_congr_left fun m hm => ?_)
    rw [Function.comp_apply, isIntersection_boundTo, ih m hm]
  | intersection members ih =>
    rw [boundTo_intersection, render_intersection, render_intersection, List.map_map]
    exact congrArg _ (List.map_congr_left ih)

/-- There is nothing left to bind in a type that is bound. -/
theorem boundTo_boundTo (c fqn : String) (t : TypeHint) :
    (t.boundTo fqn).boundTo c = t.boundTo fqn := by
  induction t using TypeHint.induction with
  | builtin word =>
    by_cases hself : word = "self" ∨ word = "static"
    · rw [boundTo, if_pos hself, boundTo]
    · rw [boundTo, if_neg hself, boundTo, if_neg hself]
  | cls own => rw [boundTo, boundTo]
  | nullable inner ih => rw [boundTo, boundTo, ih]
  | union members ih =>
    rw [boundTo_union, boundTo_union, List.map_map]
    exact congrArg union (List.map_congr_left ih)
  | intersection members ih =>
    rw [boundTo_intersection, boundTo_intersection, List.map_map]
    exact congrArg intersection (List.map_congr_left ih)

/-- A leaf is a keyword or a class. -/
theorem eq_of_mem_leaves (h : leaf ∈ t.leaves) :
    (∃ word, leaf = builtin word) ∨ ∃ own, leaf = cls own := by
  induction t using TypeHint.induction with
  | builtin word =>
    rw [leaves] at h
    exact .inl ⟨word, List.mem_singleton.1 h⟩
  | cls own =>
    rw [leaves] at h
    exact .inr ⟨own, List.mem_singleton.1 h⟩
  | nullable inner ih =>
    rw [leaves] at h
    exact ih h
  | union members ih =>
    rw [leaves_union] at h
    obtain ⟨m, hm, h⟩ := List.mem_flatMap.1 h
    exact ih m hm h
  | intersection members ih =>
    rw [leaves_intersection] at h
    obtain ⟨m, hm, h⟩ := List.mem_flatMap.1 h
    exact ih m hm h

/-- The keywords of a type are in small letters. -/
def IsFolded (t : TypeHint) : Prop := ∀ word, builtin word ∈ t.leaves → lowerCase word = word

/-- The relative leaves of a folded type are the three keywords. -/
theorem relative_of_folded (ht : t.IsFolded) (hleaf : leaf ∈ t.leaves) (h : leaf.isRelative = true) :
    ∃ word ∈ relativeWords, leaf = builtin word := by
  obtain ⟨word, rfl⟩ | ⟨own, rfl⟩ := eq_of_mem_leaves hleaf
  · refine ⟨word, ?_, rfl⟩
    rw [isRelative, ht word hleaf] at h
    exact List.contains_iff_mem.1 h
  · cases h

/-- Binding leaves no relative leaf but `parent`. -/
theorem boundTo_relative (h : w ∈ relativeWords) : (builtin w).boundTo fqn =
    if w = "parent" then builtin "parent" else cls fqn := by
  obtain rfl | rfl | rfl : w = "self" ∨ w = "static" ∨ w = "parent" := by
    simpa [relativeWords] using h
  all_goals rw [boundTo]; rfl

theorem isBottom_boundTo : (t.boundTo fqn).isBottom = t.isBottom := by
  cases t with
  | builtin word =>
    rw [boundTo]
    split
    · rename_i hword
      obtain rfl | rfl := hword <;> rfl
    · rfl
  | cls own => rw [boundTo]
  | nullable inner =>
    rw [boundTo]
    rfl
  | union members =>
    rw [boundTo_union]
    rfl
  | intersection members =>
    rw [boundTo_intersection]
    rfl

/-- A bound type holds a relative leaf exactly where the type holds `parent`, and no other. -/
theorem relative_boundTo_iff (ht : t.IsFolded) : leaf ∈ (t.boundTo fqn).leaves ∧ leaf.isRelative = true ↔
    leaf = builtin "parent" ∧ builtin "parent" ∈ t.leaves := by
  have hparent : (builtin "parent").boundTo fqn = builtin "parent" :=
    (boundTo_relative (by decide)).trans (if_pos rfl)
  rw [leaves_boundTo, List.mem_map]
  constructor
  · rintro ⟨⟨own, hown, rfl⟩, hrelative⟩
    have hsame : own.isRelative = true := by
      obtain ⟨word, rfl⟩ | ⟨fqn', rfl⟩ := eq_of_mem_leaves hown
      · by_cases hword : word = "self" ∨ word = "static"
        · rw [boundTo, if_pos hword] at hrelative
          cases hrelative
        · rwa [boundTo, if_neg hword] at hrelative
      · rwa [boundTo] at hrelative
    obtain ⟨word, hword, rfl⟩ := relative_of_folded ht hown hsame
    rw [boundTo_relative hword] at hrelative ⊢
    split at hrelative
    · rename_i heq
      rw [if_pos heq]
      exact ⟨rfl, heq ▸ hown⟩
    · cases hrelative
  · rintro ⟨rfl, hmem⟩
    exact ⟨⟨_, hmem, hparent⟩, by decide⟩

end TypeHint

/-! ## Binding a method -/

/-- A parameter with its type bound. -/
def Param.boundTo (fqn : String) (p : Param) : Param :=
  { p with typeHint := p.typeHint.map (TypeHint.boundTo fqn) }

/-- A method with all its types bound. -/
def Method.boundTo (fqn : String) (m : Method) : Method :=
  { m with
    params := m.params.map (Param.boundTo fqn)
    returnType := m.returnType.map (TypeHint.boundTo fqn) }

/-- The types that a method declares: those of its parameters in order, and that of its result. -/
def Method.declaredTypes (m : Method) : List TypeHint :=
  m.params.filterMap Param.typeHint ++ m.returnType.toList

/-- The leaves of a method's types. -/
def Method.typeLeaves (m : Method) : List TypeHint := m.declaredTypes.flatMap TypeHint.leaves

theorem Method.declaredTypes_boundTo (fqn : String) (m : Method) :
    (m.boundTo fqn).declaredTypes = m.declaredTypes.map (TypeHint.boundTo fqn) := by
  have hparams : (m.params.map (Param.boundTo fqn)).filterMap Param.typeHint =
      (m.params.filterMap Param.typeHint).map (TypeHint.boundTo fqn) := by
    rw [List.filterMap_map, List.map_filterMap]
    rfl
  have hresult : (m.returnType.map (TypeHint.boundTo fqn)).toList =
      m.returnType.toList.map (TypeHint.boundTo fqn) := by
    cases m.returnType <;> rfl
  rw [declaredTypes, declaredTypes, boundTo, hparams, hresult, List.map_append]

namespace StubMethod

variable {c fqn : String} {index : ClassIndex} {p : Param}

theorem typePart_boundTo : typePart c (p.boundTo fqn) = typePart fqn p := by
  unfold typePart Param.boundTo
  cases p.typeHint with
  | none => rfl
  | some t =>
    simp only [Option.map_some, TypeHint.render_eq_boundTo, TypeHint.boundTo_boundTo]

theorem paramText_boundTo (optional : Bool) :
    paramText c index optional (p.boundTo fqn) = paramText fqn index optional p := by
  rw [paramText, typePart_boundTo]
  rfl

theorem docText_boundTo : docText c (p.boundTo fqn) = docText fqn p := by
  rw [docText, typePart_boundTo]
  rfl

theorem isHeadOptional_boundTo (fqn : String) (ps : List Param) :
    Method.isHeadOptional (ps.map (Param.boundTo fqn)) = Method.isHeadOptional ps := by
  cases ps with
  | nil => rfl
  | cons p later =>
    rw [List.map_cons, Method.isHeadOptional, List.all_map]
    rfl

theorem paramTexts_boundTo (ps : List Param) :
    paramTexts c index (ps.map (Param.boundTo fqn)) = paramTexts fqn index ps := by
  induction ps with
  | nil => rfl
  | cons p later ih =>
    have hoptional := isHeadOptional_boundTo fqn (p :: later)
    rw [List.map_cons] at hoptional
    rw [List.map_cons, paramTexts, paramTexts, ih, hoptional, paramText_boundTo]

/-- A stub is that of the method with its types bound, for which the class does not matter. -/
theorem ofMethod_boundTo (c fqn : String) (index : ClassIndex) (m : Method) :
    ofMethod (m.boundTo fqn) c index = ofMethod m fqn index := by
  have hargs : (m.params.map (Param.boundTo fqn)).map argText = m.params.map argText := by
    rw [List.map_map]
    rfl
  have hdocs : (m.params.map (Param.boundTo fqn)).map (docText c) = m.params.map (docText fqn) := by
    rw [List.map_map]
    exact List.map_congr_left fun p _ => docText_boundTo
  unfold ofMethod Method.boundTo
  rw [paramTexts_boundTo, hargs, hdocs]
  cases m.returnType with
  | none => rfl
  | some t =>
    have htext : (t.boundTo fqn).render (some c) = t.render (some fqn) := by
      rw [TypeHint.render_eq_boundTo, TypeHint.boundTo_boundTo, TypeHint.render_eq_boundTo]
    simp only [Option.map_some, htext, TypeHint.isBottom_boundTo]

end StubMethod

/-! ## Keywords of analysed types -/

namespace Analysis

theorem lowerCase_lowerCase (s : String) : lowerCase (lowerCase s) = lowerCase s := by
  rw [lowerCase, lowerCase, String.toList_ofList, lowered, lowered, List.map_map]
  refine congrArg _ (List.map_congr_left fun c _ => ?_)
  exact toLower_toLower c

theorem isFolded_namedType (names : NameScope) (text : String) : (namedType names text).IsFolded := by
  intro word hword
  unfold namedType at hword
  dsimp only at hword
  split at hword
  · rw [TypeHint.leaves, List.mem_singleton] at hword
    cases hword
    exact lowerCase_lowerCase text
  · rw [TypeHint.leaves, List.mem_singleton] at hword
    cases hword

mutual

/-- The keywords of a type are lowered where it is analysed. -/
theorem isFolded_typeHint (source : Bytes) (names : NameScope) : ∀ n : Node,
    (typeHint source names n).IsFolded
  | .mk kind start stop children => by
    intro word hword
    rw [typeHint.eq_def] at hword
    dsimp only at hword
    split at hword
    · rename_i inner more
      rw [TypeHint.leaves] at hword
      exact isFolded_typeHint source names inner word hword
    · rw [TypeHint.leaves_union] at hword
      obtain ⟨m, hm, hword⟩ := List.mem_flatMap.1 hword
      exact isFolded_typeHints source names children m hm word hword
    · rw [TypeHint.leaves_intersection] at hword
      obtain ⟨m, hm, hword⟩ := List.mem_flatMap.1 hword
      exact isFolded_typeHints source names children m hm word hword
    · obtain rfl : word = _ := by simpa [TypeHint.leaves] using hword
      exact lowerCase_lowerCase _
    · exact isFolded_namedType names _ word hword

theorem isFolded_typeHints (source : Bytes) (names : NameScope) : ∀ ns : List Node,
    ∀ m ∈ typeHints source names ns, m.IsFolded
  | [] => by simp [typeHints]
  | n :: rest => by
    intro m hm
    rw [typeHints] at hm
    rcases List.mem_cons.1 hm with rfl | hm
    · exact isFolded_typeHint source names n
    · exact isFolded_typeHints source names rest m hm

end

variable {source : Bytes} {scope : ClassScope} {n : Node} {t : TypeHint}

theorem isFolded_declaredType? {names : NameScope} (h : declaredType? source names n = some t) :
    t.IsFolded := by
  obtain ⟨node, -, rfl⟩ := Option.map_eq_some_iff.1 h
  exact isFolded_typeHint source names node

theorem typeHint_of_param? {p : Param} (h : param? source scope n = some p) :
    p.typeHint = declaredType? source scope.names n := by
  unfold param? at h
  split at h
  · obtain ⟨name, -, rfl⟩ := Option.map_eq_some_iff.1 h
    rfl
  · cases h

/-- The keywords of a method's types are in small letters. -/
theorem folded_of_method? {kind : ClassKind} {m : Method}
    (h : Analysis.method? source scope kind n = some m) (ht : t ∈ m.declaredTypes) : t.IsFolded := by
  obtain ht | ht := List.mem_append.1 ht
  · obtain ⟨p, hp, ht⟩ := List.mem_filterMap.1 ht
    rw [params_of_method? h] at hp
    obtain ⟨node, -, hnode⟩ := List.mem_filterMap.1 hp
    rw [typeHint_of_param? hnode] at ht
    exact isFolded_declaredType? ht
  · obtain ⟨name, -, rfl⟩ := Option.map_eq_some_iff.1 h
    exact isFolded_declaredType? (Option.mem_toList.1 ht)

end Analysis

/-! ## The types of a stub -/

/-- In an index of sources, the stub of a service's method is written from the method's types with
`self` and `static` bound to the service: at every depth of a type each of them is the class, and all
else is as declared. One keyword that depends on the class is left, `parent`, and it is left wherever
the method declares it. -/
theorem relative_types_of_stub [Recovery] {base : String} {files : List SourceFile} {index : ClassIndex}
    (h : ({} : ClassIndex).addSources? base files = some index) {S : String} {m : Method}
    (hm : m ∈ index.methodsOf S) :
    (∀ c, StubMethod.ofMethod (m.boundTo S) c index = StubMethod.ofMethod m S index) ∧
    (∀ t ∈ m.declaredTypes, t.render (some S) = (t.boundTo S).render none ∧
      (t.boundTo S).leaves = t.leaves.map (TypeHint.boundTo S) ∧
      ∀ leaf ∈ t.leaves, leaf.isRelative = true →
        leaf = .builtin "parent" ∨ leaf.boundTo S = .cls S) ∧
    ∀ leaf, leaf ∈ (m.boundTo S).typeLeaves ∧ leaf.isRelative = true ↔
      leaf = .builtin "parent" ∧ .builtin "parent" ∈ m.typeLeaves := by
  obtain ⟨t, d, hd, hmd, -⟩ := exists_declares hm
  obtain ⟨source, scope, node, hanalysed⟩ := exists_analysedFrom h (mem_decls_of_get? hd) hmd
  have hfolded : ∀ t ∈ m.declaredTypes, t.IsFolded :=
    fun t ht => folded_of_method? hanalysed.analysed ht
  refine ⟨fun c => StubMethod.ofMethod_boundTo c S index m, fun t ht => ⟨?_, ?_, ?_⟩, fun leaf => ?_⟩
  · exact TypeHint.render_eq_boundTo S t
  · exact TypeHint.leaves_boundTo S t
  · intro leaf hleaf hrelative
    obtain ⟨word, hword, rfl⟩ := TypeHint.relative_of_folded (hfolded t ht) hleaf hrelative
    rw [TypeHint.boundTo_relative hword]
    by_cases hparent : word = "parent"
    · exact .inl (congrArg _ hparent)
    · exact .inr (if_neg hparent)
  · rw [Method.typeLeaves, Method.declaredTypes_boundTo, List.flatMap_map, Method.typeLeaves]
    constructor
    · rintro ⟨hleaf, hrelative⟩
      obtain ⟨t, ht, hleaf⟩ := List.mem_flatMap.1 hleaf
      obtain ⟨rfl, hparent⟩ := (TypeHint.relative_boundTo_iff (hfolded t ht)).1 ⟨hleaf, hrelative⟩
      exact ⟨rfl, List.mem_flatMap.2 ⟨t, ht, hparent⟩⟩
    · rintro ⟨rfl, hparent⟩
      obtain ⟨t, ht, hparent⟩ := List.mem_flatMap.1 hparent
      obtain ⟨hleaf, hrelative⟩ := (TypeHint.relative_boundTo_iff (hfolded t ht)).2 ⟨rfl, hparent⟩
      exact ⟨List.mem_flatMap.2 ⟨t, ht, hleaf⟩, hrelative⟩

/-- A class whose method takes the class itself and returns the parent, or nothing. -/
def heirSource : Bytes := Utf8.bytesOf
  "<?php class B\x7b\x7d class S extends B\x7bfunction f(?SELF $x): ?parent\x7b\x7d\x7d"

def heirIndex : ClassIndex :=
  (@ClassIndex.addSources? .nothing {} "" [⟨"s.php", ["s.php"], heirSource⟩]).getD {}

/-- The keyword behind a question mark. -/
def TypeHint.nullableWord? : TypeHint → Option String
  | nullable (builtin word) => some word
  | _ => none

theorem TypeHint.eq_of_nullableWord? {t : TypeHint} {word : String}
    (h : t.nullableWord? = some word) : t = nullable (builtin word) := by
  unfold nullableWord? at h
  split at h
  · rw [Option.some.inj h]
  · cases h

/-- What the index of the two classes is, by computation. -/
theorem heirIndex_computed :
    (@ClassIndex.addSources? .nothing {} "" [⟨"s.php", ["s.php"], heirSource⟩]).isSome = true ∧
      (heirIndex.methodsOf "S").head?.map (fun m => (m.isForwardable,
        m.params.map fun p => p.typeHint.bind TypeHint.nullableWord?,
        m.returnType.bind TypeHint.nullableWord?)) = some (true, [some "self"], some "parent") ∧
      heirIndex.parent? "S" = some "B" := by
  decide +kernel

theorem heirIndex_built :
    @ClassIndex.addSources? .nothing {} "" [⟨"s.php", ["s.php"], heirSource⟩] = some heirIndex := by
  obtain ⟨index, hindex⟩ := Option.isSome_iff_exists.1 heirIndex_computed.1
  rw [heirIndex, hindex, Option.getD_some]

/-- The method of the class, with the types that it declares. -/
theorem exists_heirMethod : ∃ m ∈ heirIndex.methodsOf "S", m.isForwardable = true ∧
    m.declaredTypes = [.nullable (.builtin "self"), .nullable (.builtin "parent")] ∧
    m.returnType = some (.nullable (.builtin "parent")) := by
  obtain ⟨-, hmethod, -⟩ := heirIndex_computed
  obtain ⟨m, hhead, hm⟩ := Option.map_eq_some_iff.1 hmethod
  obtain ⟨hforwardable, hparams, hresult⟩ : m.isForwardable = true ∧
      m.params.map (fun p => p.typeHint.bind TypeHint.nullableWord?) = [some "self"] ∧
      m.returnType.bind TypeHint.nullableWord? = some "parent" := by
    simpa only [Prod.mk.injEq] using hm
  obtain ⟨p, hp, hself⟩ := List.map_eq_singleton_iff.1 hparams
  obtain ⟨taken, htaken, hword⟩ := Option.bind_eq_some_iff.1 hself
  obtain ⟨given, hgiven, hgivenWord⟩ := Option.bind_eq_some_iff.1 hresult
  rw [TypeHint.eq_of_nullableWord? hword] at htaken
  rw [TypeHint.eq_of_nullableWord? hgivenWord] at hgiven
  refine ⟨m, List.mem_of_head? hhead, hforwardable, ?_, hgiven⟩
  rw [Method.declaredTypes, hp, hgiven, List.filterMap_cons_some htaken]
  rfl

/-- A type of the method is the class, and the other one stays as it is. -/
theorem relative_types_of_heir : ∃ m ∈ heirIndex.methodsOf "S",
    (∀ c, StubMethod.ofMethod (m.boundTo "S") c heirIndex = StubMethod.ofMethod m "S" heirIndex) ∧
    (∀ t ∈ m.declaredTypes, t.render (some "S") = (t.boundTo "S").render none ∧
      (t.boundTo "S").leaves = t.leaves.map (TypeHint.boundTo "S") ∧
      ∀ leaf ∈ t.leaves, leaf.isRelative = true →
        leaf = .builtin "parent" ∨ leaf.boundTo "S" = .cls "S") ∧
    ∀ leaf, leaf ∈ (m.boundTo "S").typeLeaves ∧ leaf.isRelative = true ↔
      leaf = .builtin "parent" ∧ .builtin "parent" ∈ m.typeLeaves := by
  obtain ⟨m, hm, -⟩ := exists_heirMethod
  exact ⟨m, hm, @relative_types_of_stub .nothing _ _ _ heirIndex_built _ _ hm⟩

/-- The class has a parent, yet its stub returns `?parent`, the parent of another class. -/
theorem parent_reaches_stub : heirIndex.parent? "S" = some "B" ∧
    ∃ m ∈ heirIndex.methodsOf "S", m.isForwardable = true ∧
      (StubMethod.ofMethod m "S" heirIndex).returnType = "?parent" ∧
      ∃ leaf ∈ (m.boundTo "S").typeLeaves, leaf.isRelative = true := by
  obtain ⟨m, hm, hforwardable, htypes, hresult⟩ := exists_heirMethod
  refine ⟨heirIndex_computed.2.2, m, hm, hforwardable, ?_, .builtin "parent", ?_, by decide⟩
  · rw [StubMethod.ofMethod, hresult]
    simp only [TypeHint.render]
    decide
  · rw [Method.typeLeaves, Method.declaredTypes_boundTo, htypes]
    simp [TypeHint.boundTo, TypeHint.leaves]

end FacadeStubs
