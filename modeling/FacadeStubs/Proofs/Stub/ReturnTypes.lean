import FacadeStubs.Proofs.Names.Written
import FacadeStubs.Proofs.Reader.TypeShapes
import FacadeStubs.Proofs.Stub.Layout

/-!
# Return types read back

A return type is written into a helper file of another namespace, where other classes are imported.
`TypeHint.ReadsBack` says that the type is read there as itself: with the same classes, the same
keywords and the same structure.

Results:
* `classes_typeHint`: the classes of a type are what the names in it stand for.
* `readsBack_iff_goesOnNever`: a type of written classes reads back, unless it goes on behind the word
  `never`.
* `returnType_readsBack_iff`: the same of every return type that a method has where the namespace and
  the imports are names.
* `commented_import_misread`: an import that is none, and a return type that does not read back.
-/
namespace FacadeStubs

open Php Lexical Reader

/-! ## Classes and names of a type -/

namespace TypeHint

/-- The classes in a type. -/
def classes : TypeHint → List String
  | builtin _ => []
  | cls fqn => [fqn]
  | nullable named => named.classes
  | union members => members.attach.flatMap fun ⟨m, _⟩ => m.classes
  | intersection members => members.attach.flatMap fun ⟨m, _⟩ => m.classes

theorem mem_classes_union {k : String} {members : List TypeHint} :
    k ∈ (union members).classes ↔ ∃ m ∈ members, k ∈ m.classes := by
  simp [classes]

theorem mem_classes_intersection {k : String} {members : List TypeHint} :
    k ∈ (intersection members).classes ↔ ∃ m ∈ members, k ∈ m.classes := by
  simp [classes]

end TypeHint

namespace Analysis

mutual

/-- The names in the node of a type, as they are looked up. -/
def spelledNames (source : Bytes) : Node → List String
  | .mk kind start stop children =>
    match kind, children with
    | .optionalType, named :: _ => spelledNames source named
    | .unionType, members => spelledNamesIn source members
    | .intersectionType, members => spelledNamesIn source members
    | .primitiveType, _ => []
    | _, _ => [trimmed (Node.text source (.mk kind start stop []))]

/-- The same of nodes that stand side by side. -/
def spelledNamesIn (source : Bytes) : List Node → List String
  | [] => []
  | n :: rest => spelledNames source n ++ spelledNamesIn source rest

end

theorem classes_namedType {names : NameScope} {text k : String}
    (hk : k ∈ (namedType names text).classes) : k = names.resolve text := by
  unfold namedType at hk
  dsimp only at hk
  split at hk
  · simp [TypeHint.classes] at hk
  · simpa [TypeHint.classes] using hk

mutual

/-- The classes of a type are what the names in it stand for. -/
theorem classes_typeHint (source : Bytes) (names : NameScope) : ∀ n : Node,
    ∀ k ∈ (typeHint source names n).classes, ∃ s ∈ spelledNames source n, k = names.resolve s
  | .mk kind start stop children => by
    intro k hk
    rw [typeHint.eq_def] at hk
    dsimp only at hk
    split at hk
    · rename_i named more
      rw [TypeHint.classes] at hk
      rw [spelledNames]
      exact classes_typeHint source names named k hk
    · obtain ⟨m, hm, hk⟩ := TypeHint.mem_classes_union.1 hk
      rw [spelledNames]
      exact classes_typeHints source names children m hm k hk
    · obtain ⟨m, hm, hk⟩ := TypeHint.mem_classes_intersection.1 hk
      rw [spelledNames]
      exact classes_typeHints source names children m hm k hk
    · simp [TypeHint.classes] at hk
    · rw [spelledNames]
      · exact ⟨_, List.mem_singleton_self _, classes_namedType hk⟩
      all_goals assumption

theorem classes_typeHints (source : Bytes) (names : NameScope) : ∀ ns : List Node,
    ∀ m ∈ typeHints source names ns, ∀ k ∈ m.classes,
      ∃ s ∈ spelledNamesIn source ns, k = names.resolve s
  | [] => by simp [typeHints]
  | n :: rest => by
    intro m hm k hk
    rw [typeHints] at hm
    rw [spelledNamesIn]
    rcases List.mem_cons.1 hm with rfl | hm
    · obtain ⟨s, hs, rfl⟩ := classes_typeHint source names n k hk
      exact ⟨s, List.mem_append_left _ hs, rfl⟩
    · obtain ⟨s, hs, rfl⟩ := classes_typeHints source names rest m hm k hk
      exact ⟨s, List.mem_append_right _ hs, rfl⟩

end

end Analysis

/-! ## Keywords and classes -/

section
variable {source : Bytes} {names : NameScope} {n : Node} {word k : String}

/-- Keywords are their own small and trimmed form. -/
theorem spelling_cases (h : word ∈ TypeHint.spellings) : lowerCase (trimmed word) = word ∧
    (atPrimitiveType (Utf8.bytesOf word) = true ∨ TypeHint.builtins.contains word = true) := by
  have hall : ∀ word ∈ TypeHint.spellings, lowerCase (trimmed word) = word ∧
      (atPrimitiveType (Utf8.bytesOf word) = true ∨ TypeHint.builtins.contains word = true) := by
    decide +kernel
  exact hall word h

/-- The node of a keyword is taken for the keyword, if it is of the kind for keywords or the keyword is
one that stands as a name. -/
theorem typeHint_spelling {kind : Kind} (hword : word ∈ TypeHint.spellings)
    (hkind : kind = .primitiveType ∨ kind = .namedType ∧ TypeHint.builtins.contains word = true)
    (h : n.IsNameType source kind (Utf8.bytesOf word)) :
    Analysis.typeHint source names n = .builtin word := by
  obtain ⟨hlower, -⟩ := spelling_cases hword
  obtain ⟨kind', start, stop, children⟩ := n
  obtain rfl : kind' = kind := h.kind
  have htext : Node.text source (.mk kind' start stop []) = word := Node.text_of_bytes h.bytes
  rcases hkind with rfl | ⟨rfl, hbuiltin⟩
  · rw [typeHint_primitive, htext, hlower]
  · rw [typeHint_named, htext, Analysis.namedType, hlower]
    exact if_pos hbuiltin

/-- No keyword begins with a backslash. -/
theorem notKeyword_rooted (k : String) :
    TypeHint.builtins.contains (lowerCase ("\\" ++ k)) = false := by
  have hall : ∀ word ∈ TypeHint.builtins, word.toList.head? ≠ some '\\' := by decide
  have hhead : (lowerCase ("\\" ++ k)).toList.head? = some '\\' := by
    rw [lowerCase, String.toList_ofList, String.toList_append]
    rfl
  cases hmem : TypeHint.builtins.contains (lowerCase ("\\" ++ k)) with
  | false => rfl
  | true => exact absurd hhead (hall _ (List.contains_iff_mem.1 hmem))

/-- The node of a written name behind a backslash is taken for the class, in every scope. -/
theorem typeHint_written (hk : IsWritten k)
    (h : n.IsNameType source .namedType (Utf8.bytesOf ("\\" ++ k))) :
    Analysis.typeHint source names n = .cls k := by
  obtain ⟨kind, start, stop, children⟩ := n
  obtain rfl : kind = .namedType := h.kind
  have htext : Node.text source (.mk .namedType start stop []) = "\\" ++ k :=
    Node.text_of_bytes h.bytes
  have htrim : trimmed ("\\" ++ k) = "\\" ++ k := by
    refine trimmed_solid ?_
    rw [String.toList_append]
    exact hk.solid
  rw [typeHint_named, htext, htrim, Analysis.namedType, notKeyword_rooted, resolve_absolute names hk.solid]
  rfl

/-- What the nodes of the parts of a type are taken for is what the type is made of. -/
theorem compositional_typeHint (source : Bytes) (names : NameScope) :
    Compositional fun t n => Analysis.typeHint source names n = t := by
  have hall : ∀ {ts : List TypeHint} {ns : List Node},
      List.Forall₂ (fun t n => Analysis.typeHint source names n = t) ts ns →
        ns.map (Analysis.typeHint source names) = ts := by
    intro ts ns hns
    induction hns with
    | nil => rfl
    | cons hn _ ih => rw [List.map_cons, hn, ih]
  constructor
  · intro t n m hkind hchildren hn
    rw [typeHint_optional hkind hchildren, hn]
  · intro ts m hkind hns
    rw [typeHint_intersection hkind, hall hns]
  · intro ts m hkind hns
    rw [typeHint_union hkind, hall hns]

end

/-! ## Reading back -/

namespace TypeHint

/-- In return position, behind any gap, the text of a type is read as the type: in every namespace and
after any imports, in front of all that does not go on a type. -/
def ReadsBack (t : TypeHint) : Prop :=
  ∀ (source : Bytes) (b : Bool) (names : NameScope) (g : Bytes), IsGap g →
    Reads source b returnType (58 :: (g ++ typeBytes none t)) (EndsType b)
      fun ns => ∃ n, ns = [n] ∧ Analysis.typeHint source names n = t

/-- A keyword, or a class of whose name something holds. -/
def IsNamedBy (P : String → Prop) (t : TypeHint) : Prop := t.IsNamed ∧ ∀ k ∈ t.classes, P k

variable {P : String → Prop} {t m : TypeHint}

theorem isPlainText_restated (names : NameScope) (ht : t.IsNamedBy IsWritten) :
    IsPlainText (fun source n => Analysis.typeHint source names n = t) (typeBytes none t) := by
  obtain ⟨hnamed, hclasses⟩ := ht
  cases t with
  | builtin word =>
    obtain ⟨hname, hfolded, hmodest⟩ := word_spelling hnamed
    obtain ⟨-, hbuiltin⟩ := spelling_cases hnamed
    have htext : typeBytes none (builtin word) = Utf8.bytesOf word := by
      rw [typeBytes, render]
      rfl
    rw [htext]
    refine (isPlainText_word hname hfolded hmodest).mono fun _ _ hn =>
      typeHint_spelling hnamed ?_ hn
    by_cases hprimitive : atPrimitiveType (Utf8.bytesOf word) = true
    · exact .inl (if_pos hprimitive)
    · exact .inr ⟨if_neg hprimitive, hbuiltin.resolve_left hprimitive⟩
  | cls k =>
    have hk : IsWritten k := hclasses k (by simp [classes])
    obtain ⟨g, s, r, hg, hs, hr, hbytes⟩ := hk.bytes
    have htext : typeBytes none (cls k) = 92 :: (g ++ (s ++ r)) := by
      rw [typeBytes, render, Utf8.bytesOf_append, hbytes]
      rfl
    rw [htext]
    refine (isPlainText_rooted hg hs hr).mono fun source n hn => typeHint_written hk ?_
    rwa [← htext, typeBytes, render] at hn
  | _ => exact hnamed.elim

theorem IsSimpleOf.namedBy (ht : t.IsSimpleOf IsNamed) (hk : ∀ k ∈ t.classes, P k) :
    t.IsSimpleOf (IsNamedBy P) := by
  cases t with
  | nullable named =>
    rw [classes] at hk
    exact ⟨ht, hk⟩
  | builtin word => exact ⟨ht, hk⟩
  | cls k => exact ⟨ht, hk⟩
  | _ => exact ht.elim

theorem IsMeetOf.namedBy (ht : t.IsMeetOf IsNamed) (hk : ∀ k ∈ t.classes, P k) :
    t.IsMeetOf (IsNamedBy P) := by
  cases t with
  | intersection members =>
    refine ⟨ht.1, fun m hm => (ht.2 m hm).namedBy fun k hkm => ?_⟩
    exact hk k (mem_classes_intersection.2 ⟨m, hm, hkm⟩)
  | _ => exact ht.elim

theorem IsBuiltOf.namedBy (ht : t.IsBuiltOf IsNamed) (hk : ∀ k ∈ t.classes, P k) :
    t.IsBuiltOf (IsNamedBy P) := by
  have hpart : ∀ {m : TypeHint}, m.IsSimpleOf IsNamed ∨ m.IsMeetOf IsNamed →
      (∀ k ∈ m.classes, P k) → m.IsSimpleOf (IsNamedBy P) ∨ m.IsMeetOf (IsNamedBy P) := by
    intro m hm hkm
    exact hm.imp (fun h => h.namedBy hkm) fun h => h.namedBy hkm
  cases t with
  | union members =>
    refine ⟨ht.1, fun m hm => hpart (ht.2 m hm) fun k hkm => ?_⟩
    exact hk k (mem_classes_union.2 ⟨m, hm, hkm⟩)
  | _ => exact hpart ht hk

/-- A type is not read back if its text is a type already before its end: the reader stops there. -/
theorem not_readsBack_of_front {f v : Bytes} {ok : Bytes → Prop} {post : Bytes → List Node → Prop}
    (htext : typeBytes none t = f ++ v) (hv : v ≠ [])
    (hread : ∀ source, Reads source false returnType (58 :: ([] ++ f)) ok (post source))
    (hok : ok (v ++ [123])) : ¬ t.ReadsBack := by
  intro hback
  let source : Bytes := 58 :: (typeBytes none t ++ [123])
  let c : Cursor := { rest := source, offset := 0, size := source.length }
  have hc : c.Stands source false := ⟨⟨rfl, rfl⟩, rfl, rfl⟩
  have hbrace : EndsType false [123] :=
    ⟨endsPath_sign rfl rfl (by decide), [123], next_token (beginsToken_solid rfl), rfl, rfl⟩
  have hrest : c.rest = (58 :: ([] ++ f)) ++ (v ++ [123]) := by
    show 58 :: (typeBytes none t ++ [123]) = _
    rw [htext]
    simp
  obtain ⟨ns, hrun, -⟩ := hback source false {} [] .nil hc rfl hbrace
  obtain ⟨ns', hrun', -⟩ := hread source hc hrest hok
  have hsame := congrArg (fun r => r.map fun p => p.2.offset) (hrun.symm.trans hrun')
  have hlength : v.length = 0 := by simpa [Cursor.past, htext] using hsame
  exact hv (List.length_eq_zero_iff.1 hlength)

theorem not_readsBack_of_broken (h : IsBrokenReturn (typeBytes none t)) : ¬ t.ReadsBack := by
  obtain ⟨a, v, htext, ha⟩ := h
  have hbound : Boundary (a :: (v ++ [123])) := boundary_cons (by rcases ha with rfl | rfl <;> rfl)
  exact not_readsBack_of_front htext (by simp) (fun source => reads_never .nil) hbound

/-- A type of the form that is read, all classes of which have written names, reads back unless it goes
on behind the word `never`. -/
theorem readsBack_iff_goesOnNever (hbuilt : t.IsBuiltOf IsNamed) (hcollapsed : t.collapsed = t)
    (hclasses : ∀ k ∈ t.classes, IsWritten k) : t.ReadsBack ↔ t.goesOnNever = false := by
  rcases @returnWord_render none _ hbuilt with ⟨hgoes, hword⟩ | ⟨hgoes, hbroken⟩
  · refine iff_of_true (fun source b names g hg => ?_) hgoes
    rcases hword with ⟨hnever, halone⟩ | hother
    · rw [hnever]
      refine (reads_never hg).mono (fun u hu => hu.1.1) fun ns hns => ?_
      obtain ⟨n, rfl, hn⟩ := hns
      have hspelling : "never" ∈ spellings := by decide
      refine ⟨n, rfl, ?_⟩
      rw [← hcollapsed, halone]
      exact typeHint_spelling hspelling (.inl rfl) hn
    · have htext := @isHintText_render none (fun source t n => Analysis.typeHint source names n = t) _ _
        (fun source => compositional_typeHint source names)
        (fun _ => isPlainText_restated names) (hbuilt.namedBy hclasses)
      rw [hcollapsed] at htext
      exact reads_returnHint hg htext hother
  · exact iff_of_false (not_readsBack_of_broken hbroken) (by simp [hgoes])

end TypeHint

/-! ## Return types of methods -/

/-- The return type of a method in a scope of names is made of written classes, and is read back from
its text in every namespace and after any imports, unless it goes on behind the word `never`. -/
theorem returnType_readsBack_iff {source : Bytes} {names : NameScope} {n : Node}
    (h : IsReturnType source n) (hnames : names.IsOrdinary)
    (hspelled : ∀ s ∈ Analysis.spelledNames source n, IsSpelled s) :
    (∀ k ∈ (Analysis.typeHint source names n).classes, IsWritten k) ∧
    ((Analysis.typeHint source names n).ReadsBack ↔
      (Analysis.typeHint source names n).goesOnNever = false) := by
  have hclasses : ∀ k ∈ (Analysis.typeHint source names n).classes, IsWritten k := by
    intro k hk
    obtain ⟨s, hs, rfl⟩ := Analysis.classes_typeHint source names n k hk
    exact isWritten_resolve hnames (hspelled s hs)
  have hshape := h.hasShape
  exact ⟨hclasses,
    TypeHint.readsBack_iff_goesOnNever (hshape.built names) (hshape.collapsed names) hclasses⟩

/-! ## Two return types -/

/-- A source that begins with a return type and goes on with the end of the statement. -/
theorem isReturnType_front {source : Bytes} {n : Node}
    (h : (returnType.run { rest := source, offset := 0, size := source.length, tagEnds := true }).map
      (fun p => (p.1, (semicolon.run p.2).isSome)) = some ([n], true)) : IsReturnType source n := by
  obtain ⟨⟨ns, d⟩, hrun, hp⟩ := Option.map_eq_some_iff.1 h
  obtain ⟨rfl, hend⟩ := Prod.mk.inj hp
  obtain ⟨⟨_, e⟩, he⟩ := Option.isSome_iff_exists.1 hend
  exact ⟨_, d, ⟨rfl, rfl⟩, rfl, hrun, .inr ⟨e, he⟩⟩

/-- A word without blanks is a name whole. -/
theorem isSpelled_word {c : String} (h : IsName (Utf8.bytesOf c) ∧ IsUnspaced c.toList) :
    IsSpelled c ∧ IsWritten c := by
  obtain ⟨hname, hne, hblank⟩ := h
  have hsolid : Solid c.toList := solid_of_all hne hblank
  have hbytes : Utf8.bytesOf c = Utf8.bytesOf c ++ [] := (List.append_nil _).symm
  exact ⟨.relative hsolid hname .nil hbytes, isWritten_relative hsolid hname .nil hbytes⟩

theorem isWritten_app {c : String} (hc : IsWritten c) : IsWritten ("App" ++ "\\" ++ c) := by
  have happ : IsWritten "App" := (isSpelled_word (by decide +kernel)).2
  exact happ.below hc

/-- An intersection and a keyword, with a comment between them. -/
def meetSource : Bytes := Utf8.bytesOf ": (A & B /* x */) | NULL;"

def meetNode : Node := .mk .unionType 2 24
  [.mk .intersectionType 3 8
    [.mk .namedType 3 4 [.mk .name 3 4 []], .mk .namedType 7 8 [.mk .name 7 8 []]],
   .mk .namedType 20 24 [.mk .name 20 24 []]]

def meetScope : NameScope := { namespaceName := some "N", imports := [("b", "App\\B")] }

def meetType : TypeHint :=
  .union [.intersection [.cls "N\\A", .cls "App\\B"], .builtin "null"]

theorem isOrdinary_meetScope : meetScope.IsOrdinary := by
  have hspace : IsWritten "N" := (isSpelled_word (by decide +kernel)).2
  have hshort : IsWritten "B" := (isSpelled_word (by decide +kernel)).2
  have hfull : IsWritten "App\\B" := isWritten_app hshort
  have halias : IsName (Utf8.bytesOf "b") := by decide
  constructor
  · intro ns hns
    obtain rfl : "N" = ns := Option.some.inj hns
    exact hspace
  · intro entry hentry
    obtain rfl : entry = ("b", "App\\B") := List.mem_singleton.1 hentry
    exact halias
  · intro entry hentry
    obtain rfl : entry = ("b", "App\\B") := List.mem_singleton.1 hentry
    exact hfull

theorem typeHint_meetNode : Analysis.typeHint meetSource meetScope meetNode = meetType := by
  have htext : trimmed (Node.text meetSource (.mk .namedType 3 4 [])) = "A" ∧
      trimmed (Node.text meetSource (.mk .namedType 7 8 [])) = "B" ∧
      trimmed (Node.text meetSource (.mk .namedType 20 24 [])) = "NULL" := by decide +kernel
  have hword : "a" ∉ TypeHint.builtins ∧ "b" ∉ TypeHint.builtins ∧ "null" ∈ TypeHint.builtins ∧
      lowerCase "A" = "a" ∧ lowerCase "B" = "b" ∧ lowerCase "NULL" = "null" := by decide +kernel
  have hresolve : meetScope.resolve "A" = "N\\A" ∧ meetScope.resolve "B" = "App\\B" := by
    decide +kernel
  rw [meetNode, typeHint_union rfl]
  simp only [Node.children, List.map_cons, List.map_nil]
  rw [typeHint_intersection rfl]
  simp only [Node.children, List.map_cons, List.map_nil]
  simp [typeHint_named, meetType, Analysis.namedType, htext, hword, hresolve]

theorem returnType_readsBack_iff_meet : IsReturnType meetSource meetNode ∧
    Analysis.typeHint meetSource meetScope meetNode = meetType ∧ meetType.ReadsBack := by
  have hreturn : IsReturnType meetSource meetNode := isReturnType_front (by decide +kernel)
  have hspelled : ∀ s ∈ Analysis.spelledNames meetSource meetNode, IsSpelled s := by
    have hnames : Analysis.spelledNames meetSource meetNode = ["A", "B", "NULL"] := by decide +kernel
    have hword : ∀ s ∈ ["A", "B", "NULL"], IsName (Utf8.bytesOf s) ∧ IsUnspaced s.toList := by
      decide +kernel
    intro s hs
    rw [hnames] at hs
    exact (isSpelled_word (hword s hs)).1
  obtain ⟨-, hback⟩ := returnType_readsBack_iff hreturn isOrdinary_meetScope hspelled
  rw [typeHint_meetNode] at hback
  exact ⟨hreturn, typeHint_meetNode, hback.2 rfl⟩

/-- A class by its other name. -/
def aliasSource : Bytes := Utf8.bytesOf ": B;"

def aliasNode : Node := .mk .namedType 2 3 [.mk .name 2 3 []]

theorem typeHint_aliasNode : Analysis.typeHint aliasSource { imports := [("b", "App\\Foo/*x*/")] }
    aliasNode = .cls "App\\Foo/*x*/" := by
  have htext : trimmed (Node.text aliasSource (.mk .namedType 2 3 [])) = "B" := by decide +kernel
  have hword : TypeHint.builtins.contains (lowerCase "B") = false := by decide +kernel
  have hresolve : NameScope.resolve { imports := [("b", "App\\Foo/*x*/")] } "B" =
      "App\\Foo/*x*/" := by decide +kernel
  rw [aliasNode, typeHint_named, htext, Analysis.namedType, hword, hresolve]
  rfl

theorem readsBack_appFoo : (TypeHint.cls "App\\Foo").ReadsBack := by
  have hshort : IsWritten "Foo" := (isSpelled_word (by decide +kernel)).2
  have hwritten : ∀ k ∈ (TypeHint.cls "App\\Foo").classes, IsWritten k := by
    simpa [TypeHint.classes] using isWritten_app hshort
  have hbuilt : (TypeHint.cls "App\\Foo").IsBuiltOf TypeHint.IsNamed := Or.inl trivial
  exact (TypeHint.readsBack_iff_goesOnNever hbuilt rfl hwritten).2 rfl

/-- A comment in an import is taken for a part of the name of the class, and behind a backslash the
name is read without it. -/
theorem commented_import_misread : ∃ scope : NameScope,
    ({} : NameScope).addUse? "use App\\Foo/*x*/ as B;" = some scope ∧
    IsReturnType aliasSource aliasNode ∧
    Analysis.typeHint aliasSource scope aliasNode = .cls "App\\Foo/*x*/" ∧
    ¬ (TypeHint.cls "App\\Foo/*x*/").ReadsBack := by
  refine ⟨{ imports := [("b", "App\\Foo/*x*/")] }, by decide +kernel,
    isReturnType_front (by decide +kernel), typeHint_aliasNode, ?_⟩
  have hcomment : Utf8.bytesOf "/*x*/" = 47 :: 42 :: ([120] ++ 42 :: 47 :: []) := rfl
  have hgap : IsGap (Utf8.bytesOf "/*x*/") := by
    rw [hcomment]
    exact .comment (isCommented_of_ne_slash (List.forall_mem_singleton.2 (by decide))) .nil
  have hnext : Next (Utf8.bytesOf "/*x*/" ++ [123]) [123] :=
    next_append hgap (beginsToken_solid rfl)
  have hends : EndsType false (Utf8.bytesOf "/*x*/" ++ [123]) :=
    ⟨hnext.endsPath (boundary_cons rfl) rfl, [123], hnext, rfl, rfl⟩
  have htext : typeBytes none (.cls "App\\Foo/*x*/") =
      typeBytes none (.cls "App\\Foo") ++ Utf8.bytesOf "/*x*/" := by
    simp only [typeBytes, TypeHint.render, ← Utf8.bytesOf_append]
    rfl
  exact TypeHint.not_readsBack_of_front htext (by decide)
    (fun source => readsBack_appFoo source false {} [] .nil) hends

end FacadeStubs
