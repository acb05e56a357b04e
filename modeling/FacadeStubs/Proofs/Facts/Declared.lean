import FacadeStubs.Proofs.Layout.Statements
import FacadeStubs.Proofs.Stub.RelativeTypes

/-!
# What accepted sources declare

The analysis copies names and types from the source. Where the source is in the grammar, these are what the
grammar has: the names of classes and methods are names, the names of parameters bear no signs or blanks,
and types are built from keywords and classes.

Results:
* `exists_text_of_isName`: the bytes of a name are a text.
* `isDeclared_of_mem`: so it is with every declaration of an index of accepted sources.
-/
namespace FacadeStubs

open Php Lexical Analysis ClassIndex

/-! ## Names -/

/-- A run of name characters is a text. -/
theorem exists_decode?_of_nameTail (s : Bytes) (hs : nameTail s = s.length) :
    ∃ cs, Utf8.decode? s = some cs := by
  have hcons : ∀ {a : UInt8} {s rest : Bytes}, (∃ c, Utf8.head a (s ++ rest) = (some c, s.length)) →
      (∃ cs, Utf8.decode? rest = some cs) → ∃ cs, Utf8.decode? (a :: (s ++ rest)) = some cs := by
    rintro a s rest ⟨c, hhead⟩ ⟨cs, hcs⟩
    refine ⟨c :: cs, ?_⟩
    rw [Utf8.decode?, Utf8.decodeFrom?, hhead]
    show (Utf8.decodeFrom? s.length (s ++ rest)).map _ = _
    rw [Utf8.decodeFrom?_skip]
    exact congrArg (Option.map _) hcs
  fun_induction nameTail s with
  | case1 => exact ⟨[], rfl⟩
  | case2 a rest h ih =>
    have hlow : a < 0x80 := by
      simp only [isLetter, isDigit] at h
      grind
    refine hcons (s := []) ?_ (ih (by simpa using hs))
    rw [List.nil_append, Utf8.head.eq_def, if_pos hlow]
    exact ⟨_, rfl⟩
  | case4 a h b rest h' ih =>
    simp only [isWidePair, Bool.and_eq_true, decide_eq_true_eq] at h'
    obtain ⟨⟨⟨hlow, hhigh⟩, htail⟩, -⟩ := h'
    have hnot : ¬ a < 0x80 := by grind
    refine hcons (s := [b]) ?_ (ih (by simpa using hs))
    rw [Utf8.head.eq_def, if_neg hnot, if_pos (by simp [hlow, hhigh])]
    simp only [List.singleton_append, htail, if_true]
    exact ⟨_, rfl⟩
  | case6 a h b h' c rest h'' ih =>
    simp only [isWideTriple, Bool.and_eq_true, decide_eq_true_eq] at h''
    obtain ⟨⟨⟨⟨hlow, hhigh⟩, hadmits⟩, htail⟩, -⟩ := h''
    have hnot : ¬ a < 0x80 := by grind
    have hnot' : ¬ (0xC2 ≤ a && a ≤ 0xDF) = true := by grind
    refine hcons (s := [b, c]) ?_ (ih (by simpa using hs))
    rw [Utf8.head.eq_def, if_neg hnot, if_neg hnot', if_pos (by simp [hlow, hhigh])]
    simp [hadmits, htail]
  | _ => simp at hs

/-- The bytes of a name are a text. -/
theorem exists_text_of_isName {s : Bytes} (hs : IsName s) : ∃ t : String, s = Utf8.bytesOf t := by
  obtain ⟨cs, hcs⟩ := exists_decode?_of_nameTail s (nameTail_self hs)
  exact ⟨String.ofList cs, by rw [Utf8.bytesOf_ofList, Utf8.decode?_eq_some_iff.1 hcs]⟩

/-- The name of a variable stays when the sign is put in front of it again. -/
theorem variableName_dollar (text : String) :
    variableName ("$" ++ variableName text) = variableName text := by
  generalize hname : (trimBlanks (text.toList.dropWhile (· == '&'))).dropWhile (· == '$') = name
  have hvalue : variableName text = String.ofList name := congrArg String.ofList hname
  have hsolid : Solid ('$' :: name) := by
    refine ⟨⟨'$', rfl, rfl⟩, ?_⟩
    rcases trimBlanks_nil_or_solid (text.toList.dropWhile (· == '&')) with hnil | hsolid
    · rw [hnil] at hname
      exact ⟨'$', by rw [← hname]; rfl, rfl⟩
    · obtain ⟨c, hc, hblank⟩ := hsolid.ends
      cases hlast : name.getLast? with
      | none =>
        obtain rfl : name = [] := List.getLast?_eq_none_iff.1 hlast
        exact ⟨'$', rfl, rfl⟩
      | some e =>
        refine ⟨e, by rw [List.getLast?_cons, hlast]; rfl, ?_⟩
        obtain ⟨front, hfront⟩ : ∃ front, trimBlanks (text.toList.dropWhile (· == '&')) = front ++ name :=
          ⟨_, hname ▸ (List.takeWhile_append_dropWhile).symm⟩
        rw [hfront, List.getLast?_append, hlast] at hc
        obtain rfl := Option.some.inj hc
        exact hblank
  have hdollar : name.dropWhile (· == '$') = name := by
    rw [← hname, List.dropWhile_idempotent]
  rw [hvalue]
  unfold variableName
  have hkeep : ("$" ++ String.ofList name).toList.dropWhile (· == '&') = '$' :: name := by
    simp [String.toList_append]
  rw [hkeep, trimBlanks_solid hsolid]
  exact congrArg String.ofList hdollar

/-! ## Nodes of accepted sources -/

namespace Php.Node

mutual

theorem mem_parts_trans : ∀ {n m k : Node}, m ∈ n.parts → k ∈ m.parts → k ∈ n.parts
  | .mk kind start stop children, m, k, hm, hk => by
    rw [parts] at hm
    rcases List.mem_cons.1 hm with rfl | hm
    · exact hk
    · rw [parts]
      exact List.mem_cons_of_mem _ (mem_partsIn_trans hm hk)

theorem mem_partsIn_trans : ∀ {ns : List Node} {m k : Node}, m ∈ partsIn ns → k ∈ m.parts → k ∈ partsIn ns
  | [], _, _, hm, _ => by cases hm
  | n :: rest, m, k, hm, hk => by
    rw [partsIn] at hm ⊢
    rcases List.mem_append.1 hm with hm | hm
    · exact List.mem_append_left _ (mem_parts_trans hm hk)
    · exact List.mem_append_right _ (mem_partsIn_trans hm hk)

end

theorem mem_parts_self (n : Node) : n ∈ n.parts := by
  obtain ⟨kind, start, stop, children⟩ := n
  rw [parts]
  exact List.mem_cons_self

theorem mem_parts_child {n m : Node} (hm : m ∈ n.children) : m ∈ n.parts := by
  obtain ⟨kind, start, stop, children⟩ := n
  rw [parts]
  exact List.mem_cons_of_mem _ (mem_partsIn.2 ⟨m, hm, m.mem_parts_self⟩)

/-- A node of a source that is in the grammar. -/
def StandsIn (source : Bytes) (n : Node) : Prop := ∃ tree, parse? source = some tree ∧ n ∈ tree.parts

variable {source : Bytes} {n m : Node}

theorem StandsIn.child (h : n.StandsIn source) (hm : m ∈ n.children) : m.StandsIn source := by
  obtain ⟨tree, htree, hn⟩ := h
  exact ⟨tree, htree, mem_parts_trans hn (mem_parts_child hm)⟩

theorem StandsIn.isOrderly (h : n.StandsIn source) : n.IsOrderly := by
  obtain ⟨tree, htree, hn⟩ := h
  exact (isOrderly_of_parse? htree).parts n hn

theorem StandsIn.fits (h : n.StandsIn source) : n.Fits source := by
  obtain ⟨tree, htree, hn⟩ := h
  exact (laid_of_parse? htree).fits n (mem_partsIn.2 ⟨tree, List.mem_cons_self, hn⟩)

theorem child?_eq_some {kind : Kind} (h : n.child? kind = some m) : m ∈ n.children ∧ m.kind = kind :=
  ⟨List.mem_of_find?_eq_some h, by simpa using List.find?_some h⟩

/-- The name of what is declared is a name. -/
theorem StandsIn.isName_name (h : n.StandsIn source) (hwhole : ∀ m ∈ n.children, m.IsWhole)
    (hm : n.child? .name = some m) : IsName (Utf8.bytesOf (m.text source)) := by
  obtain ⟨hmem, hkind⟩ := child?_eq_some hm
  have hname := isName_of_fits hkind (h.child hmem).fits (hwhole m hmem hkind)
  obtain ⟨t, ht⟩ := exists_text_of_isName hname
  rw [text_of_bytes ht, ← ht]
  exact hname

end Php.Node

namespace Analysis

mutual

theorem mem_parts_of_mem_landmarks : ∀ {n m : Node}, m ∈ landmarks n → m ∈ n.parts
  | .mk kind start stop children, m, hm => by
    rw [landmarks] at hm
    rw [Node.parts]
    split at hm
    · rcases List.mem_cons.1 hm with rfl | hm
      · exact List.mem_cons_self
      · exact List.mem_cons_of_mem _ (mem_partsIn_of_mem_landmarksIn hm)
    · exact List.mem_cons_of_mem _ (mem_partsIn_of_mem_landmarksIn hm)

theorem mem_partsIn_of_mem_landmarksIn : ∀ {ns : List Node} {m : Node}, m ∈ landmarksIn ns →
    m ∈ Node.partsIn ns
  | [], _, hm => by
    rw [landmarksIn] at hm
    cases hm
  | n :: rest, m, hm => by
    rw [landmarksIn] at hm
    rw [Node.partsIn]
    rcases List.mem_append.1 hm with hm | hm
    · exact List.mem_append_left _ (mem_parts_of_mem_landmarks hm)
    · exact List.mem_append_right _ (mem_partsIn_of_mem_landmarksIn hm)

end

variable {source : Bytes} {scope : ClassScope} {n : Node} {kind : ClassKind} {m : Method} {p : Param}

theorem built_declaredType? {names : NameScope} {t : TypeHint} (hn : n.StandsIn source)
    (h : declaredType? source names n = some t) : t.IsBuiltOf TypeHint.IsNamed := by
  obtain ⟨node, hnode, rfl⟩ := Option.map_eq_some_iff.1 h
  have htype : node.kind.isType = true := by simpa using List.find?_some hnode
  exact ((Node.fits_type_iff htype).1 (hn.child (List.mem_of_find?_eq_some hnode)).fits).built names

theorem variableName_of_param? (h : param? source scope n = some p) :
    variableName ("$" ++ p.name) = p.name := by
  unfold param? at h
  split at h
  · obtain ⟨name, -, rfl⟩ := Option.map_eq_some_iff.1 h
    exact variableName_dollar _
  · cases h

end Analysis

/-! ## Declarations -/

namespace Php.Node

variable {source : Bytes} {n : Node}

theorem StandsIn.below {kind : Kind} (h : n.StandsIn source) :
    ∀ m ∈ ((n.child? kind).map Node.children).getD [], m.StandsIn source := by
  intro m hm
  cases hlist : n.child? kind with
  | none =>
    rw [hlist] at hm
    cases hm
  | some list =>
    rw [hlist] at hm
    exact (h.child (child?_eq_some hlist).1).child hm

/-- The parts of what is declared are whole. -/
theorem StandsIn.isWhole (h : n.StandsIn source)
    (hkind : (∃ kind, n.kind = .declaration kind) ∨ n.kind = .method) :
    ∀ m ∈ n.children, m.IsWhole := by
  have hfits := h.fits
  unfold Fits at hfits
  rcases hkind with ⟨kind, hkind⟩ | hkind <;> rwa [hkind] at hfits

end Php.Node

/-- What a method of an accepted source is: its name is a name, the names of its parameters bear no signs
or blanks, and its types are built from keywords and classes. -/
structure Method.IsDeclared (m : Method) : Prop where
  name : IsName (Utf8.bytesOf m.name)
  params : ∀ p ∈ m.params, variableName ("$" ++ p.name) = p.name
  types : ∀ t ∈ m.declaredTypes, t.IsBuiltOf TypeHint.IsNamed

/-- What a declaration of an accepted source is. -/
structure ClassDecl.IsDeclared (d : ClassDecl) : Prop where
  name : IsName (Utf8.bytesOf d.name)
  methods : ∀ m ∈ d.methods, m.IsDeclared

section
variable {source : Bytes} {path : String} {names : NameScope} {scope : ClassScope} {n : Node}
  {kind : ClassKind} {d : ClassDecl} {m : Method}

theorem isDeclared_of_method? (hn : n.StandsIn source) (hkind : n.kind = .method)
    (h : Analysis.method? source scope kind n = some m) : m.IsDeclared where
  name := by
    obtain ⟨name, hname, rfl⟩ := Option.map_eq_some_iff.1 h
    exact hn.isName_name (hn.isWhole (.inr hkind)) hname
  params p hp := by
    rw [params_of_method? h] at hp
    obtain ⟨node, -, hnode⟩ := List.mem_filterMap.1 hp
    exact variableName_of_param? hnode
  types t ht := by
    rcases List.mem_append.1 ht with ht | ht
    · obtain ⟨p, hp, ht⟩ := List.mem_filterMap.1 ht
      rw [params_of_method? h] at hp
      obtain ⟨node, hmem, hnode⟩ := List.mem_filterMap.1 hp
      rw [typeHint_of_param? hnode] at ht
      exact built_declaredType? (hn.below node hmem) ht
    · obtain ⟨name, -, rfl⟩ := Option.map_eq_some_iff.1 h
      exact built_declaredType? hn (Option.mem_toList.1 ht)

theorem isDeclared_of_classDecl? (hn : n.StandsIn source) (hkind : n.kind = .declaration kind)
    (h : classDecl? source path names kind n = some d) : d.IsDeclared where
  name := by
    unfold classDecl? at h
    obtain ⟨name, hname, h⟩ := Option.bind_eq_some_iff.1 h
    dsimp only at h
    split at h
    · cases h
    · cases h
      exact hn.isName_name (hn.isWhole (.inl ⟨kind, hkind⟩)) hname
  methods m hm := by
    obtain ⟨scope, node, hmem, hkind, -, hmethod⟩ := exists_of_mem_methods h hm
    exact isDeclared_of_method? (hn.below node hmem) hkind hmethod

end

/-- Every declaration of an index of accepted sources has the names and types that the grammar has. -/
theorem isDeclared_of_mem [Recovery] {base : String} {files : List SourceFile} {index : ClassIndex}
    (h : ({} : ClassIndex).addSources? base files = some index)
    (haccepted : ∀ f ∈ files, (parse? f.content).isSome = true) {d : ClassDecl} (hd : d ∈ index.decls) :
    d.IsDeclared := by
  obtain hd | ⟨f, hf, path, facts, hfacts, hd⟩ := exists_facts h hd
  · cases hd
  · obtain ⟨tree, htree⟩ := Option.isSome_iff_exists.1 (haccepted f hf)
    have hfound : treeFacts? path f.content tree = some facts := by
      rw [← hfacts, fileFacts?, htree]
    obtain ⟨names, kind, n, hn, hkind, hdecl⟩ := exists_of_mem_treeFacts? hfound hd
    exact isDeclared_of_classDecl? ⟨tree, htree, mem_parts_of_mem_landmarks hn⟩ hkind hdecl

end FacadeStubs
