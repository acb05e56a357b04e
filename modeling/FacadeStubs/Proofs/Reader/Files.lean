import FacadeStubs.Proofs.Reader.Classes

/-!
# Reading helper files

A helper file that is well written is in the grammar, and the facts of it are the classes that were
written, in order.

Results:
* `parseBy?_file`: the tree of a helper file has a node for each namespace.
* `fileFacts?_file`: its facts have the outlines of the classes that were written.
-/
namespace FacadeStubs

/-- A class without anything but its name and the outlines of its methods; the empty namespace is the
global one. -/
structure ClassOutline where
  namespaceName : String
  name : String
  methods : List MethodOutline
  deriving Repr, DecidableEq

def ClassDecl.outline (d : ClassDecl) : ClassOutline :=
  ⟨d.namespaceName.getD "", d.name, d.methods.map Method.outline⟩

namespace Php

open Lexical Reader Analysis

variable {source : Bytes} {long : Bool} {n : Nat}

/-! ## The tree -/

/-- The opening tag, and namespaces with empty lines around them. -/
def fileBytes (ms : List NamespaceText) : Bytes :=
  Utf8.bytesOf "<?php" ++ ([10, 10] ++ ms.flatMap fun m => m.bytes ++ [10, 10])

/-- The namespaces of a file, each with what it is read as. -/
def namespaceRow (source : Bytes) (ms : List NamespaceText) : Row Node :=
  ms.map fun m => (m.bytes, fun x => x.IsNamespace source m)

/-- No statement begins at the end of the source. -/
theorem stops_statement_end {g : Bytes} (hg : IsGap g) {b : Bool} {grammar : Grammar} :
    Stops source b (statementWith grammar) g := by
  have hnext : Next g [] := by simpa using next_append hg beginsToken_nil
  refine Stops.withTagEnds (stops_openGap hnext ?_)
  refine Stops.look (a := []) (fun c _ hr => by rw [run_remaining, hr]) (Stops.position fun start => ?_)
  exact Stops.bind fun c _ _ => run_require_false rfl

/-- The program of statements behind the opening tag and of a gap behind them. -/
theorem run_program {t k : Bytes} {xs : List Node} {c : Cursor} {grammar : Grammar}
    (hr : c.rest = Utf8.bytesOf "<?php" ++ (t ++ k))
    (hmany : (many grammar.statement).run (c.past 5) = some (xs, (c.past 5).past t.length))
    (hk : IsGap k) :
    ∃ stop d, (program grammar).run c = some (.mk .program 0 stop xs, d) := by
  have htag : outsideText? false true c.rest = some 5 := by
    rw [hr]
    rfl
  have hrest : ((c.past 5).past t.length).rest = k := by
    have h5 : (c.past 5).rest = t ++ k := Cursor.past_rest_append hr
    exact Cursor.past_rest_append h5
  have hgap : gaps k = k.length := by simpa using hk.gaps beginsToken_nil
  have hend : (((c.past 5).past t.length).past k.length).rest.isEmpty = true := by
    rw [Cursor.past_rest, hrest]
    simp
  refine ⟨((c.past 5).past t.length).offset + k.length, ((c.past 5).past t.length).past k.length, ?_⟩
  unfold program
  rw [run_bind_some run_remaining, htag]
  simp only
  rw [run_bind_some (run_advance 5), run_bind_some hmany, run_bind_some run_gap, hrest, hgap,
    run_bind_some run_remaining, run_bind_some (run_require_true hend), run_bind_some run_position]
  rfl

/-- The entries of a file with the empty lines in front of them, and what is left. -/
theorem fileBytes_spaced (source : Bytes) (ms : List NamespaceText) :
    fileBytes ms = Utf8.bytesOf "<?php" ++
      (rowBytes (spaced [10, 10] [10, 10] (namespaceRow source ms)) ++
        spacedEnd [10, 10] [10, 10] (namespaceRow source ms)) := by
  rw [rowBytes_spaced]
  simp [namespaceRow, List.flatMap_map, fileBytes]

/-- The cursor at the start of a source. -/
def Cursor.start (source : Bytes) : Cursor :=
  { rest := source, offset := 0, size := source.length }

theorem Cursor.start_stands (source : Bytes) : (Cursor.start source).Stands source false :=
  ⟨⟨rfl, rfl⟩, rfl, rfl⟩

theorem parseBy?_start (hn : source.length = n + 4) : parseBy? long source =
    ((program (Grammar.upTo long (n + 5))).run (Cursor.start source)).map (·.1) := by
  simp only [parseBy?, hn, Cursor.start]

/-- Each namespace decides behind the lines in front of it. -/
theorem decides_entry {ms : List NamespaceText} (hms : ∀ m ∈ ms, m.Sound)
    (hd : ∀ m ∈ ms, ∀ t ∈ m.defaults, (IsDefaultText t ∨ IsBrokenDefault t) ∧ t.length ≤ n)
    {m : NamespaceText} (hm : m ∈ ms) {k : Bytes} (hk : IsGap k) :
    Decides source false (Grammar.upTo long (n + 5)).statement (k ++ m.bytes) anyRest
      (fun x => x.IsNamespace source m) m.Readable :=
  decides_namespace (hms m hm) (hd m hm) hk

theorem parseBy?_file {ms : List NamespaceText} (hms : ∀ m ∈ ms, m.Sound)
    (hd : ∀ m ∈ ms, ∀ t ∈ m.defaults, (IsDefaultText t ∨ IsBrokenDefault t) ∧ t.length ≤ n)
    (hgood : ∀ m ∈ ms, m.Readable) (hn : (fileBytes ms).length = n + 4) :
    ∃ tree, parseBy? long (fileBytes ms) = some tree ∧ tree.kind = .program ∧
      Gives (namespaceRow (fileBytes ms) ms) tree.children := by
  have hlines : IsGap [10, 10] := .space rfl (.space rfl .nil)
  have hsplit := fileBytes_spaced (fileBytes ms) ms
  generalize fileBytes ms = source at *
  have hitems : ∀ i ∈ spaced [10, 10] [10, 10] (namespaceRow source ms), i.1 ≠ [] ∧
      Reads source false (Grammar.upTo long (n + 5)).statement i.1 anyRest i.2 := by
    refine forall_spaced (p := fun t post => t ≠ [] ∧
      Reads source false (Grammar.upTo long (n + 5)).statement t anyRest post) hlines hlines ?_
    refine List.forall_mem_map.2 fun m hm k hk => ⟨by simp [NamespaceText.bytes], ?_⟩
    exact (decides_entry hms hd hm hk).reads (hgood m hm)
  have hk : IsGap (spacedEnd [10, 10] [10, 10] (namespaceRow source ms)) :=
    isGap_spacedEnd hlines hlines _
  have hrest : ((Cursor.start source).past 5).rest = _ :=
    Cursor.past_rest_append (c := Cursor.start source) hsplit
  obtain ⟨xs, hmany, hxs⟩ := reads_many (fun i hi => (hitems i hi).1) (fun i hi => (hitems i hi).2)
    (fun _ _ _ => trivial) ((Cursor.start_stands source).past 5) hrest
    ⟨trivial, stops_statement_end hk⟩
  obtain ⟨stop, d, hrun⟩ := run_program (c := Cursor.start source) hsplit hmany hk
  refine ⟨.mk .program 0 stop xs, ?_, rfl, gives_spaced hxs⟩
  rw [parseBy?_start hn, hrun]
  rfl

/-- A file with a namespace that cannot be read is not in the grammar. -/
theorem parseBy?_file_none {ms : List NamespaceText} (hms : ∀ m ∈ ms, m.Sound)
    (hd : ∀ m ∈ ms, ∀ t ∈ m.defaults, (IsDefaultText t ∨ IsBrokenDefault t) ∧ t.length ≤ n)
    (hbad : ∃ m ∈ ms, ¬ m.Readable)
    (hn : (fileBytes ms).length = n + 4) : parseBy? long (fileBytes ms) = none := by
  have hlines : IsGap [10, 10] := .space rfl (.space rfl .nil)
  have hsplit := fileBytes_spaced (fileBytes ms) ms
  generalize fileBytes ms = source at *
  let r := (Grammar.upTo long (n + 5)).statement
  have hitems : ∀ i ∈ spaced [10, 10] [10, 10] (namespaceRow source ms),
      Reads source false r i.1 anyRest i.2 ∨ Breaks source false r i.1 anyRest := by
    refine forall_spaced (p := fun t post =>
      Reads source false r t anyRest post ∨ Breaks source false r t anyRest) hlines hlines ?_
    refine List.forall_mem_map.2 fun m hm k hk => ?_
    by_cases hgood : m.Readable
    · exact .inl ((decides_entry hms hd hm hk).reads hgood)
    · exact .inr ((decides_entry hms hd hm hk).breaks hgood)
  have hbroken : ∃ i ∈ spaced [10, 10] [10, 10] (namespaceRow source ms),
      Breaks source false r i.1 anyRest := by
    obtain ⟨m, hm, hnot⟩ := hbad
    exact exists_spaced (p := fun t _ => Breaks source false r t anyRest) hlines hlines
      ⟨_, List.mem_map.2 ⟨m, hm, rfl⟩, fun k hk =>
        (decides_entry hms hd hm hk).breaks hnot⟩
  have hopens : ∀ i ∈ spaced [10, 10] [10, 10] (namespaceRow source ms), ∀ u,
      ∃ w, Next (i.1 ++ u) w ∧ w ≠ [] := by
    refine forall_spaced (p := fun t _ => ∀ u, ∃ w, Next (t ++ u) w ∧ w ≠ []) hlines hlines ?_
    refine List.forall_mem_map.2 fun m hm k hk u => ⟨m.bytes ++ u, ?_, by simp [NamespaceText.bytes]⟩
    have hword : IsName (Utf8.bytesOf "namespace") := by decide +kernel
    rw [List.append_assoc]
    refine next_append hk ?_
    rw [NamespaceText.bytes, List.append_assoc]
    exact beginsToken_isName hword (boundary_cons rfl)
  have hrest : ((Cursor.start source).past 5).rest = _ :=
    Cursor.past_rest_append (c := Cursor.start source) hsplit
  obtain ⟨xs, k, hmany, i, hi, v, hv⟩ := run_manyWithin_stuck hitems (fun _ _ _ => trivial) hbroken
    (source.length + 1) ((Cursor.start_stands source).past 5) hrest trivial
  have hmany' : (many r).run ((Cursor.start source).past 5) = _ := hmany
  obtain ⟨w, hnext, hw⟩ := hopens i hi v
  rw [← hv] at hnext
  have htag : outsideText? false true (Cursor.start source).rest = some 5 := by
    show outsideText? false true source = some 5
    rw [hsplit]
    rfl
  rw [parseBy?_start hn]
  have hrun : (program (Grammar.upTo long (n + 5))).run (Cursor.start source) = none := by
    unfold program
    rw [run_bind_some run_remaining, htag]
    simp only
    rw [run_bind_some (run_advance 5), run_bind_some hmany', run_bind_some run_gap,
      run_bind_some run_remaining]
    refine run_bind_none (run_require_false ?_)
    rw [Cursor.past_rest, hnext.drop_gaps]
    simpa using hw
  rw [hrun]
  rfl

/-! ## The facts -/

/-- What a namespace declares, in order. -/
def NamespaceText.outlines (m : NamespaceText) : List ClassOutline :=
  m.classes.map fun c => ⟨m.name, c.name, c.methods.map MethodText.outline⟩

/-- The classes of a namespace, and what follows it. -/
theorem classesFrom?_classes {cs : List ClassText} {xs : List Node} {path : String}
    {names : NameScope} {rest : List Node} {later : List ClassDecl}
    (h : Gives (classRow source cs) xs) (hrest : classesFrom? source path names rest = some later) :
    ∃ ds, classesFrom? source path names (xs ++ rest) = some (ds ++ later) ∧
      ds.map ClassDecl.outline = cs.map fun c =>
        ⟨names.namespaceName.getD "", c.name, c.methods.map MethodText.outline⟩ := by
  induction cs generalizing xs with
  | nil =>
    obtain _ | _ := h
    exact ⟨[], hrest, rfl⟩
  | cons c cs ih =>
    obtain _ | ⟨hx, hxs⟩ := h
    obtain ⟨ds, hds, houtlines⟩ := ih hxs
    obtain ⟨d, hd, hnamespace, hname, hmethods⟩ := hx.decl path names
    refine ⟨d :: ds, ?_, ?_⟩
    · rw [List.cons_append, classesFrom?, hx.kind]
      simp only [hds, hd]
      rfl
    · rw [List.map_cons, List.map_cons, houtlines]
      simp only [ClassDecl.outline, hnamespace, hname, hmethods]

theorem classesFrom?_namespaces {ms : List NamespaceText} {xs : List Node} (path : String)
    (names : NameScope) (h : Gives (namespaceRow source ms) xs) :
    ∃ ds, classesFrom? source path names (landmarksIn xs) = some ds ∧
      ds.map ClassDecl.outline = ms.flatMap NamespaceText.outlines := by
  induction ms generalizing xs names with
  | nil =>
    obtain _ | _ := h
    exact ⟨[], rfl, rfl⟩
  | cons m ms ih =>
    obtain _ | @⟨_, x, _, xs, hx, hxs⟩ := h
    obtain ⟨ys, hmarks, hys⟩ := hx.marks
    obtain ⟨later, hlater, houtlines⟩ := ih (names.enter (namespaceText? source x)) hxs
    obtain ⟨ds, hds, hclasses⟩ := classesFrom?_classes hys hlater
    refine ⟨ds ++ later, ?_, ?_⟩
    · rw [landmarksIn, hmarks, List.cons_append, classesFrom?, hx.kind]
      exact hds
    · rw [List.map_append, List.flatMap_cons, houtlines, hclasses, hx.enters]
      rfl

/-- Each text of a row is at most as long as the row with its separators. -/
theorem length_le_flatMap {α : Type} {f : α → Bytes} {a : α} {as : List α} (h : a ∈ as) :
    (f a).length ≤ (as.flatMap f).length :=
  (List.sublist_flatten_of_mem (List.mem_map.2 ⟨a, h, rfl⟩)).length_le

theorem length_default_le {m : MethodText} {t : Bytes} (ht : t ∈ m.defaults) :
    t.length ≤ m.bytes.length := by
  obtain ⟨p, hp, hdefault⟩ := MethodText.mem_defaults.1 ht
  have hparam : t.length ≤ p.bytes.length := by
    unfold ParamText.bytes
    split <;> simp [ParamText.behindType, ParamText.spreadBytes, ParamText.nameBytes, hdefault,
      defaultBytes] <;> omega
  have hlist : p.bytes.length ≤ (parameterBytes m.params).length := by
    obtain ⟨q, qs, hqs⟩ := List.exists_cons_of_ne_nil (List.ne_nil_of_mem hp)
    rw [hqs] at hp
    simp only [parameterBytes, parameterRow, hqs, List.map_cons, listBytes, List.length_append]
    rcases List.mem_cons.1 hp with rfl | hp
    · omega
    · have h := length_le_flatMap (f := fun p : ParamText => 44 :: 32 :: p.bytes) hp
      simp only [List.length_cons, List.flatMap_map] at h ⊢
      omega
  simp only [MethodText.bytes, MethodText.partsBytes, MethodText.nameBytes, List.length_append,
    List.length_cons]
  omega

/-- A default is shorter than the file in which it is written. -/
theorem length_default_lt {ms : List NamespaceText} {m : NamespaceText} (hm : m ∈ ms) {t : Bytes}
    (ht : t ∈ m.defaults) : t.length + 4 ≤ (fileBytes ms).length := by
  obtain ⟨c, hc, ht⟩ := List.mem_flatMap.1 ht
  obtain ⟨d, hd, ht⟩ := List.mem_flatMap.1 ht
  have hmethod := length_default_le ht
  have hclass := length_le_flatMap (f := fun m : MethodText => m.bytes ++ [10]) hd
  have hspace := length_le_flatMap (f := fun c : ClassText => c.bytes ++ [10]) hc
  have hfile := length_le_flatMap (f := fun m : NamespaceText => m.bytes ++ [10, 10]) hm
  have htag : (Utf8.bytesOf "<?php").length = 5 := rfl
  simp only [fileBytes, NamespaceText.bytes, NamespaceText.bodyBytes, ClassText.bytes,
    ClassText.nameBytes, ClassText.memberBytes, List.length_append, List.length_cons] at *
  omega

theorem length_fileBytes (ms : List NamespaceText) : ∃ n, (fileBytes ms).length = n + 4 := by
  refine ⟨(fileBytes ms).length - 4, ?_⟩
  have htag : (Utf8.bytesOf "<?php").length = 5 := rfl
  simp only [fileBytes, List.length_append, htag]
  omega

/-- A helper file that is otherwise well written has the facts that were written exactly if all its
defaults and return types can be read; if not, it is not in the grammar. -/
theorem fileFacts?_file [Recovery] {ms : List NamespaceText} (hms : ∀ m ∈ ms, m.Sound)
    (hd : ∀ m ∈ ms, ∀ t ∈ m.defaults, IsDefaultText t ∨ IsBrokenDefault t) (path : String) :
    (∃ facts, fileFacts? path (fileBytes ms) = some facts ∧ facts.hasErrors = false ∧
      facts.classes.map ClassDecl.outline = ms.flatMap NamespaceText.outlines) ↔
    ∀ m ∈ ms, m.Readable := by
  obtain ⟨n, hn⟩ := length_fileBytes ms
  have hlength : ∀ m ∈ ms, ∀ t ∈ m.defaults,
      (IsDefaultText t ∨ IsBrokenDefault t) ∧ t.length ≤ n := fun m hm t ht => by
    have hlt := length_default_lt hm ht
    exact ⟨hd m hm t ht, by omega⟩
  constructor
  · rintro ⟨facts, hfacts, herrors, -⟩
    by_contra hbad
    have hbad' : ∃ m ∈ ms, ¬ m.Readable := by simpa only [not_forall, exists_prop] using hbad
    have hnone : ∀ long, parseBy? long (fileBytes ms) = none := fun long =>
      parseBy?_file_none hms hlength hbad' hn
    unfold fileFacts? parse? at hfacts
    rw [hnone true, hnone false] at hfacts
    obtain ⟨_, -, rfl⟩ := Option.map_eq_some_iff.mp hfacts
    cases herrors
  · intro hall
    obtain ⟨tree, htree, hkind, hgives⟩ := @parseBy?_file true _ _ hms hlength hall hn
    have hmarks : landmarks tree = landmarksIn tree.children :=
      landmarks_children (by rw [hkind]; rfl)
    obtain ⟨ds, hds, houtlines⟩ := classesFrom?_namespaces path {} hgives
    unfold fileFacts? parse?
    rw [htree]
    simp only [treeFacts?, hmarks, hds]
    exact ⟨_, rfl, rfl, houtlines⟩

end Php

end FacadeStubs
