import FacadeStubs.Proofs.Reader.Methods

/-!
# Reading classes and files

A helper file is a row of namespaces in braces, each a row of classes, each a row of static methods.
The lines between two entries of a row belong to the gap in front of the second one (`spaced`).

Results:
* `decides_class`: a class is read as one declaration, with the outlines of its methods.
* `decides_namespace`: a namespace is read with its name and its classes.
-/
namespace FacadeStubs.Php

open Lexical Reader Analysis

variable {source : Bytes} {b long : Bool} {g t u w s : Bytes} {n : Nat} {grammar : Grammar}

/-! ## Classes -/

/-- A class of a helper file as it is written. -/
structure ClassText where
  name : String
  methods : List MethodText

namespace ClassText

/-- The members between the braces, with the line breaks around them. -/
def memberBytes (c : ClassText) : Bytes :=
  10 :: (c.methods.flatMap fun m => m.bytes ++ [10]) ++ List.replicate 4 32

/-- The name and all that follows it. -/
def nameBytes (c : ClassText) : Bytes :=
  Utf8.bytesOf c.name ++ (lineGap 4 ++ 123 :: (c.memberBytes ++ [125]))

def bytes (c : ClassText) : Bytes :=
  List.replicate 4 32 ++ (Utf8.bytesOf "class" ++ 32 :: c.nameBytes)

/-- A class all of which but the defaults and return types of its methods is well written. -/
structure Sound (c : ClassText) : Prop where
  name : IsName (Utf8.bytesOf c.name)
  methods : ∀ m ∈ c.methods, m.Sound

/-- The defaults of a class. -/
def defaults (c : ClassText) : List Bytes := c.methods.flatMap (·.defaults)

/-- A class whose methods can be read. -/
def Readable (c : ClassText) : Prop := ∀ m ∈ c.methods, m.Readable

end ClassText

/-- The methods of a class, each with the outline that it is read with. -/
def methodRow (source : Bytes) (ms : List MethodText) : Row Node :=
  ms.map fun m => (m.bytes, fun x => x.IsMethod source m.outline)

/-- A closing brace begins no member. -/
theorem stops_member {v : Bytes} (hu : Next u (125 :: v)) :
    Stops source b (member grammar false) u := by
  have hnext : Next (125 :: v) (125 :: v) := next_token hu.token
  have hword : wordAt (125 :: v) = "" := wordAt_boundary (boundary_cons rfl)
  have hrun : ∀ ⦃c : Cursor⦄, c.rest = 125 :: v → nextWord.run c = some ("", c) := fun c hr => by
    rw [Next.run_nextWord (by rw [hr]; exact hnext), hword]
  have hmodifier : Stops source b modifier (125 :: v) :=
    stops_modifier hnext (by rw [hword]; rfl)
  unfold member
  refine stops_openGap hu (Stops.position fun start => ?_)
  refine Stops.look (fun c _ hr => hrun hr) ((stops_attributes hnext).behindNone ?_)
  refine Stops.look (fun c _ hr => hrun hr) ?_
  refine Stops.look (a := []) (fun c hc hr => run_many_none (hmodifier hc hr)) ?_
  refine Stops.look (fun c _ hr => hrun hr) ?_
  exact Stops.bind fun c _ _ => run_require_false rfl

/-- A method begins with a word. -/
theorem MethodText.opens {m : MethodText} (hm : m.Sound) (u : Bytes) :
    ∃ w, Next (m.bytes ++ u) w ∧ beginsWith "\x7d" w = false := by
  have hgap : IsGap (List.replicate 8 32 ++ commentGap 8 m.doc) :=
    (isGap_spaces (by decide)).append (isGap_commentGap hm.doc)
  have hpublic : IsName (Utf8.bytesOf "public") := by decide +kernel
  obtain ⟨v, hv⟩ : ∃ v, m.bytes ++ u =
      (List.replicate 8 32 ++ commentGap 8 m.doc) ++ (Utf8.bytesOf "public" ++ 32 :: v) :=
    ⟨Utf8.bytesOf "static" ++ (m.partsBytes ++ u), by simp [MethodText.bytes]⟩
  have hlength : nameLength (Utf8.bytesOf "public" ++ 32 :: v) ≠ 0 := by
    rw [nameLength_append hpublic (boundary_cons rfl)]
    decide
  rw [hv]
  exact ⟨_, next_append hgap (beginsToken_name hlength), beginsWith_name hlength rfl rfl⟩

theorem decides_memberList {c : ClassText} (hc : c.Sound)
    (hd : ∀ t ∈ c.defaults, (IsDefaultText t ∨ IsBrokenDefault t) ∧ t.length ≤ n)
    (hg : IsGap g) :
    Decides source b (memberList (Grammar.upTo long (n + 3)) false)
      (g ++ 123 :: (c.memberBytes ++ [125])) anyRest
      (fun x => x.kind = .memberList ∧ Gives (methodRow source c.methods) x.children)
      c.Readable := by
  have hline : IsGap [10] := .space rfl .nil
  have hlines := decides_lines (b := b) (g := []) (r := member (Grammar.upTo long (n + 3)) false)
    (k := List.replicate 4 32) c.methods (fun m => (m.bytes, fun x => x.IsMethod source m.outline))
    MethodText.Readable .nil hline hline
    (isGap_spaces (by decide))
    (fun m hm => ⟨by simp [MethodText.bytes], fun d hgap => decides_method (hc.methods m hm)
      (fun t ht => hd t (List.mem_flatMap.2 ⟨m, hm, ht⟩)) hgap⟩)
    (fun m hm u => m.opens (hc.methods m hm) u) stops_member
  have hbytes : 123 :: (c.memberBytes ++ [125]) =
      [] ++ 123 :: ([10] ++ ((c.methods.map fun m => (m.bytes, fun x : Node =>
        x.IsMethod source m.outline)).flatMap fun i => i.1 ++ [10]) ++
          (List.replicate 4 32 ++ [125])) := by
    simp [ClassText.memberBytes, List.flatMap_map]
  rw [hbytes]
  exact (decides_nodeOf hg hlines fun u _ => beginsToken_solid rfl).mono (fun _ hu => hu)
    fun x hx => ⟨hx.1, hx.2.2⟩

/-- The outlines of the methods of a class. -/
theorem methods_methodRow {ms : List MethodText} {xs : List Node} (scope : ClassScope)
    (kind : ClassKind) (h : Gives (methodRow source ms) xs) :
    ((xs.filter fun x => x.kind == .method).filterMap (method? source scope kind)).map
      Method.outline = ms.map MethodText.outline := by
  induction ms generalizing xs with
  | nil =>
    obtain _ | _ := h
    rfl
  | cons m ms ih =>
    obtain _ | ⟨hx, hxs⟩ := h
    obtain ⟨d, hd, houtline⟩ := hx.method scope kind
    rw [List.filter_cons_of_pos (by simp [hx.kind]), List.filterMap_cons, hd]
    simp only [List.map_cons, ih hxs, houtline]

/-- A node of a class of a given name whose methods have given outlines. -/
structure Node.IsClass (x : Node) (source : Bytes) (name : String)
    (methods : List MethodOutline) : Prop where
  kind : x.kind = .declaration .cls
  landmarks : landmarks x = [x]
  decl : ∀ path names, ∃ d, classDecl? source path names .cls x = some d ∧
    d.namespaceName = names.namespaceName ∧ d.name = name ∧ d.methods.map Method.outline = methods

theorem isClass_of {x name members : Node} {c : ClassText} (hc : c.Sound)
    (hk : x.kind = .declaration .cls) (hx : x.children = [name, members])
    (hname : name.IsLeaf source .name (Utf8.bytesOf c.name))
    (hmembers : members.kind = .memberList ∧
      Gives (methodRow source c.methods) members.children) :
    x.IsClass source c.name (c.methods.map MethodText.outline) := by
  refine ⟨hk, ?_, fun path names => ?_⟩
  · have hlist : members.IsBare := isBare_of (by rw [hmembers.1]; rfl)
      (hmembers.2.all (List.forall_mem_map.2 fun m _ y hy => hy.bare))
    have hbare : landmarksIn [name, members] = [] :=
      landmarksIn_bare (by simpa using ⟨hname.isBare rfl, hlist⟩)
    obtain ⟨kind, start, stop, children⟩ := x
    obtain rfl : kind = .declaration .cls := hk
    obtain rfl : children = [name, members] := hx
    rw [Analysis.landmarks, hbare]
    rfl
  · have hchild : x.child? .name = some name ∧ x.child? .memberList = some members := by
      simp [Node.child?, hx, hname.kind, hmembers.1]
    have htext : name.text source = c.name := Node.text_of_bytes hname.bytes
    have hne : c.name.isEmpty = false := by
      have hbytes := hc.name.1
      cases hempty : c.name.isEmpty with
      | false => rfl
      | true =>
        rw [String.isEmpty_iff.1 hempty] at hbytes
        exact absurd rfl hbytes
    simp only [classDecl?, hchild, htext, hne, Option.bind_eq_bind, Option.bind_some,
      Bool.false_eq_true, if_false]
    exact ⟨_, rfl, rfl, rfl, methods_methodRow _ _ hmembers.2⟩

theorem reads_nameClause_none {kind : Kind} {word : String} {ok : Bytes → Prop}
    (h : ∀ u, ok u → ∃ w, Next u w ∧ wordAt w ≠ word) :
    Reads source b (nameClause kind word) [] ok (· = []) := by
  unfold nameClause
  refine Reads.peek (p := (· ≠ word)) (fun c u hr hu => ?_) fun found hne => ?_
  · obtain ⟨w, hnext, hw⟩ := h u hu
    exact ⟨_, Next.run_nextWord (by rw [hr]; exact hnext), hw⟩
  · rw [if_neg (by simpa using hne)]
    exact reads_pure rfl

/-- The rule for the word `class`. -/
theorem decides_classStatement {c : ClassText} (hc : c.Sound)
    (hd : ∀ t ∈ c.defaults, (IsDefaultText t ∨ IsBrokenDefault t) ∧ t.length ≤ n) (start : Nat) :
    Decides source b (declarationFrom (Grammar.upTo long (n + 3)) start [])
      (Utf8.bytesOf "class" ++ 32 :: c.nameBytes) anyRest
      (fun x => x.IsClass source c.name (c.methods.map MethodText.outline))
      c.Readable := by
  have hblank : IsGap [32] := .space rfl .nil
  have hclass : IsName (Utf8.bytesOf "class") := by decide +kernel
  have hfolded : String.ofList (folded (Utf8.bytesOf "class")) = "class" := by decide +kernel
  have hnext : ∀ u, Next (Utf8.bytesOf "class" ++ 32 :: c.nameBytes ++ u)
      (Utf8.bytesOf "class" ++ 32 :: c.nameBytes ++ u) ∧
      wordAt (Utf8.bytesOf "class" ++ 32 :: c.nameBytes ++ u) = "class" := fun u => by
    have h := next_word (g := []) .nil hclass hfolded
      (boundary_cons (b := 32) (u := c.nameBytes ++ u) rfl)
    simpa using h
  have hword : ∀ ⦃d : Cursor⦄ ⦃u : Bytes⦄,
      d.rest = Utf8.bytesOf "class" ++ 32 :: c.nameBytes ++ u → anyRest u →
      nextWord.run d = some ("class", d) := fun d u hr _ => by
    rw [Next.run_nextWord (by rw [hr]; exact (hnext u).1), (hnext u).2]
  have htail : ∀ word, word ≠ "" → ∀ u, (∃ w, u = lineGap 4 ++ 123 :: w) →
      ∃ w, Next u w ∧ wordAt w ≠ word := by
    rintro word hne u ⟨w, rfl⟩
    refine ⟨_, next_append (isGap_lineGap 4) (beginsToken_solid rfl), ?_⟩
    rw [wordAt_boundary (boundary_cons rfl)]
    exact hne.symm
  have hnone : ∀ u, (∃ v, u = Utf8.bytesOf "class" ++ 32 :: c.nameBytes ++ v) →
      Stops source b modifier u := by
    rintro u ⟨v, rfl⟩
    exact stops_modifier (hnext v).1 (by rw [(hnext v).2]; rfl)
  unfold declarationFrom
  refine Decides.look hword ?_
  refine Reads.thenDecides (t := []) (?_ : Reads _ _ _ _ (fun u => ∃ v, u =
    Utf8.bytesOf "class" ++ 32 :: c.nameBytes ++ v) (· = [])) ?_ fun u _ => ⟨u, rfl⟩
  · intro d u hd hr hu
    exact ⟨[], run_many_none (hnone u hu hd hr), rfl⟩
  rintro _ rfl
  refine Decides.look hword ?_
  rw [if_neg (by decide)]
  have hkeyword : Reads source b (keyword "class") (Utf8.bytesOf "class") Boundary fun _ => True :=
    reads_keyword (g := []) .nil hclass hfolded
  refine hkeyword.thenDecides (fun _ _ => ?_) fun u _ => boundary_cons rfl
  refine Reads.thenDecides (t := [32] ++ Utf8.bytesOf c.name) (reads_identifier hblank hc.name)
    (fun name hname => ?_) fun u _ => boundary_cons rfl
  have hrest : Decides source b (classTail (Grammar.upTo long (n + 3)))
      (lineGap 4 ++ 123 :: (c.memberBytes ++ [125])) anyRest
      (fun ns => ∃ x, ns = [x] ∧ x.kind = .memberList ∧
        Gives (methodRow source c.methods) x.children) c.Readable := by
    have hopen : ∀ u, ∃ w, lineGap 4 ++ 123 :: (c.memberBytes ++ [125]) ++ u =
        lineGap 4 ++ 123 :: w := fun u => ⟨_, by rw [List.append_assoc, List.cons_append]⟩
    unfold classTail
    refine Reads.thenDecides (t := []) (reads_nameClause_none (htail "extends" (by decide))) ?_
      fun u _ => hopen u
    rintro _ rfl
    refine Reads.thenDecides (t := []) (reads_nameClause_none (htail "implements" (by decide))) ?_
      fun u _ => hopen u
    rintro _ rfl
    exact (decides_memberList hc hd (isGap_lineGap 4)).yields fun x hx => ⟨x, rfl, hx⟩
  refine Decides.finish hrest ?_
  rintro _ ⟨members, rfl, hmembers⟩
  refine (reads_nodeFrom (.declaration .cls) start _).mono (fun _ hu => hu) fun x hx => ?_
  exact isClass_of hc hx.1 hx.2 hname hmembers

theorem decides_class {c : ClassText} (hc : c.Sound)
    (hd : ∀ t ∈ c.defaults, (IsDefaultText t ∨ IsBrokenDefault t) ∧ t.length ≤ n)
    (hg : IsGap g) :
    Decides source b (statementWith (Grammar.upTo long (n + 3))) (g ++ c.bytes) anyRest
      (fun x => x.IsClass source c.name (c.methods.map MethodText.outline))
      c.Readable := by
  have hword : BeginsStatement (Utf8.bytesOf "class") := by decide +kernel
  have hfolded : String.ofList (folded (Utf8.bytesOf "class")) = "class" := by decide +kernel
  have hgap : IsGap (g ++ List.replicate 4 32) := hg.append (isGap_spaces (by decide))
  have hbytes : g ++ c.bytes = (g ++ List.replicate 4 32) ++
      (Utf8.bytesOf "class" ++ 32 :: c.nameBytes) := by simp [ClassText.bytes]
  rw [hbytes]
  refine decides_statement hgap hword fun start v => ?_
  have hwordAt : wordAt (Utf8.bytesOf "class" ++ 32 :: v) = "class" := by
    rw [wordAt_append hword.1 (boundary_cons rfl), hfolded]
  have hdeclares : declarationWords.contains "class" = true := by decide
  unfold statementAt
  simp only [hwordAt, hdeclares, if_true]
  exact decides_classStatement hc hd start

/-! ## Namespaces -/

/-- A path without a backslash in front. -/
theorem reads_path {names : List Bytes} (hg : IsGap g) (hs : IsName s)
    (hnames : ∀ t ∈ names, IsName t) :
    Reads source b path (g ++ (s ++ pathBytes names)) (EndsPath b)
      fun x => x.bytes source = s ++ pathBytes names ∧ (names = [] → x.kind = .name) := by
  intro c u hc hr hu
  have hbound : Boundary (pathBytes names ++ u) := boundary_path hu.1
  have hr' : c.rest = g ++ (s ++ (pathBytes names ++ u)) := by simp [hr]
  have hgap : gaps c.rest = g.length := by rw [hr', hg.gaps (beginsToken_isName hs hbound)]
  have hc' := hc.past g.length
  have hrest : (c.past g.length).rest = s ++ (pathBytes names ++ u) := Cursor.past_rest_append hr'
  have htotal : (g ++ (s ++ pathBytes names)).length = g.length + (s ++ pathBytes names).length :=
    List.length_append
  rw [htotal, ← Cursor.past_past]
  unfold path
  rw [run_bind_some run_gap, hgap, run_bind_some run_position]
  generalize c.past g.length = d at *
  have hname : nameLength d.rest ≠ 0 := by
    rw [hrest, nameLength_append hs hbound]
    simpa using hs.1
  have hnext : Next d.rest d.rest := next_token (beginsToken_name hname)
  rw [run_bind_some (hnext.run_nextIs _), beginsWith_name hname rfl rfl]
  simp only [Bool.false_eq_true, if_false]
  rw [run_bind_some (run_identifier_at hrest hs hbound)]
  have hrest' : (d.past s.length).rest = pathBytes names ++ u := Cursor.past_rest_append hrest
  have hfuel : (pathBytes names).length ≤ d.size + 1 := by
    have hfits := hc'.toIn.fits
    rw [hrest] at hfits
    simp only [List.length_append] at hfits
    omega
  obtain ⟨units, hunits, hmany⟩ := run_segments (c := d.past s.length) (segments_pathBytes hnames)
    (nameTail_boundary hu.1) hu.2 hfuel hc'.mode hrest'
  have hmany' : (many Reader.segment).run (d.past s.length) =
      some (units, (d.past s.length).past (pathBytes names).length) := hmany
  rw [run_bind_some hmany', Cursor.past_past, ← List.length_append]
  have hspan : ∀ kind, Node.bytes source (.mk kind d.offset
      (d.offset + (s ++ pathBytes names).length) []) = s ++ pathBytes names := fun kind => by
    have h := hc'.toIn.bytes kind 0 (s ++ pathBytes names).length []
    rw [List.drop_zero, hrest, ← List.append_assoc, List.take_left] at h
    simpa using h
  cases units with
  | nil =>
    have hnil : pathBytes names = [] := hunits.1 rfl
    refine ⟨_, rfl, ?_, fun _ => rfl⟩
    simpa [hnil] using hspan .name
  | cons x units =>
    refine ⟨_, rfl, hspan .qualifiedName, ?_⟩
    intro hnil
    have hunits' : x :: units = [] := hunits.2 (by rw [hnil]; rfl)
    cases hunits'

/-- A namespace of a helper file as it is written; the empty name is that of the global one. -/
structure NamespaceText where
  name : String
  classes : List ClassText

namespace NamespaceText

/-- The name in front of the opening brace. -/
def nameBytes (m : NamespaceText) : Bytes :=
  if m.name.isEmpty then [] else Utf8.bytesOf m.name ++ [32]

/-- What stands between the braces. -/
def bodyBytes (m : NamespaceText) : Bytes :=
  [10, 10] ++ m.classes.flatMap fun c => c.bytes ++ [10]

def bytes (m : NamespaceText) : Bytes :=
  Utf8.bytesOf "namespace" ++ 32 :: (m.nameBytes ++ 123 :: (m.bodyBytes ++ [125]))

/-- A namespace whose classes are well written. -/
structure Sound (m : NamespaceText) : Prop where
  name : m.name = "" ∨ IsPath m.name
  classes : ∀ c ∈ m.classes, c.Sound

/-- The defaults of a namespace. -/
def defaults (m : NamespaceText) : List Bytes := m.classes.flatMap (·.defaults)

/-- A namespace whose classes can be read. -/
def Readable (m : NamespaceText) : Prop := ∀ c ∈ m.classes, c.Readable

end NamespaceText

/-- The classes of a namespace, each with what it is read as. -/
def classRow (source : Bytes) (cs : List ClassText) : Row Node :=
  cs.map fun c => (c.bytes, fun x => x.IsClass source c.name (c.methods.map MethodText.outline))

/-- A class begins with a word. -/
theorem ClassText.opens (c : ClassText) (u : Bytes) :
    ∃ w, Next (c.bytes ++ u) w ∧ beginsWith "\x7d" w = false := by
  have hgap : IsGap (List.replicate 4 32) := isGap_spaces (by decide)
  have hclass : IsName (Utf8.bytesOf "class") := by decide +kernel
  have hbytes : c.bytes ++ u =
      List.replicate 4 32 ++ (Utf8.bytesOf "class" ++ 32 :: (c.nameBytes ++ u)) := by
    simp [ClassText.bytes]
  have hlength : nameLength (Utf8.bytesOf "class" ++ 32 :: (c.nameBytes ++ u)) ≠ 0 := by
    rw [nameLength_append hclass (boundary_cons rfl)]
    decide
  rw [hbytes]
  exact ⟨_, next_append hgap (beginsToken_name hlength), beginsWith_name hlength rfl rfl⟩

theorem decides_namespaceBlock {m : NamespaceText} (hm : m.Sound)
    (hd : ∀ t ∈ m.defaults, (IsDefaultText t ∨ IsBrokenDefault t) ∧ t.length ≤ n)
    (hg : IsGap g) :
    Decides source b (block (Grammar.upTo long (n + 4))) (g ++ 123 :: (m.bodyBytes ++ [125])) anyRest
      (fun x => x.kind = .block ∧ Gives (classRow source m.classes) x.children)
      m.Readable := by
  have hline : IsGap [10] := .space rfl .nil
  have hpair : IsGap [10, 10] := .space rfl hline
  have hlines := decides_lines (b := b) (g := []) (k := [])
    (r := (Grammar.upTo long (n + 4)).statement) m.classes
    (fun c => (c.bytes, fun x => x.IsClass source c.name (c.methods.map MethodText.outline)))
    ClassText.Readable .nil hpair hline .nil
    (fun c hc => ⟨by simp [ClassText.bytes], fun d hgap => decides_class (hm.classes c hc)
      (fun t ht => hd t (List.mem_flatMap.2 ⟨c, hc, ht⟩)) hgap⟩)
    (fun c _ u => c.opens u) fun hnext => stops_statement hnext
  have hbytes : 123 :: (m.bodyBytes ++ [125]) =
      [] ++ 123 :: ([10, 10] ++ ((m.classes.map fun c => (c.bytes, fun x : Node =>
        x.IsClass source c.name (c.methods.map MethodText.outline))).flatMap fun i => i.1 ++ [10]) ++
          ([] ++ [125])) := by
    simp [NamespaceText.bodyBytes, List.flatMap_map]
  rw [hbytes]
  exact (decides_nodeOf hg hlines fun u _ => beginsToken_solid rfl).mono (fun _ hu => hu)
    fun x hx => ⟨hx.1, hx.2.2⟩

/-- A node of a namespace of a given name in which given classes are declared. -/
structure Node.IsNamespace (x : Node) (source : Bytes) (m : NamespaceText) : Prop where
  kind : x.kind = .namespaceDefinition
  marks : ∃ xs, landmarks x = x :: xs ∧ Gives (classRow source m.classes) xs
  enters : ∀ names : NameScope,
    (names.enter (namespaceText? source x)).namespaceName.getD "" = m.name

theorem landmarksIn_classes {cs : List ClassText} {xs : List Node}
    (h : Gives (classRow source cs) xs) : landmarksIn xs = xs := by
  induction cs generalizing xs with
  | nil =>
    obtain _ | _ := h
    rfl
  | cons c cs ih =>
    obtain _ | ⟨hx, hxs⟩ := h
    rw [landmarksIn, hx.landmarks, ih hxs]
    rfl

theorem landmarks_namespace {x body : Node} {front : List Node} {cs : List ClassText}
    (hk : x.kind = .namespaceDefinition) (hx : x.children = front ++ [body])
    (hfront : ∀ y ∈ front, y.IsBare)
    (hbody : body.kind = .block ∧ Gives (classRow source cs) body.children) :
    landmarks x = x :: body.children := by
  have happend : ∀ ys, (∀ y ∈ ys, y.IsBare) → landmarksIn (ys ++ [body]) = landmarks body := by
    intro ys hys
    induction ys with
    | nil => simp [landmarksIn]
    | cons y ys ih =>
      have hy : landmarks y = [] := hys y (by simp)
      rw [List.cons_append, landmarksIn, hy, ih fun z hz => hys z (by simp [hz])]
      rfl
  have hblock : landmarks body = body.children := by
    rw [landmarks_children (by rw [hbody.1]; rfl), landmarksIn_classes hbody.2]
  obtain ⟨kind, start, stop, children⟩ := x
  obtain rfl : kind = .namespaceDefinition := hk
  obtain rfl : children = front ++ [body] := hx
  rw [landmarks, happend front hfront, hblock]
  rfl

theorem IsPath.bytes {c : String} (h : IsPath c) :
    ∃ s names, Utf8.bytesOf c = s ++ pathBytes names ∧ IsName s ∧ ∀ t ∈ names, IsName t := by
  obtain ⟨s, names, hbytes, hall⟩ := h
  have hroot : Utf8.bytesOf "\\" = [92] := rfl
  rw [Utf8.bytesOf_append, hroot] at hbytes
  refine ⟨s, names, ?_, hall s (by simp), fun t ht => hall t (by simp [ht])⟩
  simpa [pathBytes] using hbytes

theorem IsPath.withoutRoot {c : String} (h : IsPath c) : withoutRoot c = c := by
  obtain ⟨s, names, hbytes, hs, -⟩ := h.bytes
  have hne : ∀ cs, c.toList ≠ '\\' :: cs := by
    intro cs hcs
    have hfirst : Utf8.bytesOf c = 92 :: Utf8.encode cs := by
      rw [Utf8.bytesOf, hcs, Utf8.encode_cons]
      rfl
    obtain ⟨a, s, rfl⟩ := List.exists_cons_of_ne_nil hs.1
    have ha := isLabelByte_of_mem hs a (by simp)
    rw [hbytes] at hfirst
    obtain ⟨rfl, -⟩ := List.cons.inj hfirst
    cases ha
  unfold FacadeStubs.withoutRoot
  have hkeep : c.toList.dropWhile (· == '\\') = c.toList := by
    cases hc : c.toList with
    | nil => rfl
    | cons a cs =>
      have ha : a ≠ '\\' := fun heq => hne cs (by rw [hc, heq])
      simp [ha]
  rw [hkeep, String.ofList_toList]

/-- What is known of the name of a namespace. -/
def IsNamespaceHead (source : Bytes) (m : NamespaceText) (front : List Node) : Prop :=
  (∀ y ∈ front, y.IsBare ∧ y.kind = .namespaceName) ∧
    (front.head?.map fun y => withoutRoot (y.text source)) =
      if m.name.isEmpty then none else some m.name

theorem isEmpty_of_isPath {c : String} (h : IsPath c) : c.isEmpty = false := by
  obtain ⟨s, names, hbytes, hs, -⟩ := h.bytes
  cases hempty : c.isEmpty with
  | false => rfl
  | true =>
    obtain ⟨a, s, rfl⟩ := List.exists_cons_of_ne_nil hs.1
    rw [String.isEmpty_iff.1 hempty] at hbytes
    cases hbytes

/-- The children of a namespace: its name, if it has one, and its block. -/
def IsNamespaceParts (source : Bytes) (m : NamespaceText) (ns : List Node) : Prop :=
  ∃ front body, ns = front ++ [body] ∧ IsNamespaceHead source m front ∧ body.kind = .block ∧
    Gives (classRow source m.classes) body.children

theorem isNamespace_of {x : Node} {m : NamespaceText} (hk : x.kind = .namespaceDefinition)
    (hx : IsNamespaceParts source m x.children) : x.IsNamespace source m := by
  obtain ⟨front, body, hchildren, ⟨hfront, hname⟩, hbody⟩ := hx
  refine ⟨hk, ⟨_, landmarks_namespace hk hchildren (fun y hy => (hfront y hy).1) hbody, hbody.2⟩, ?_⟩
  intro names
  have hchild : x.child? .namespaceName = front.head? := by
    rw [Node.child?, hchildren]
    cases front with
    | nil => simp [hbody.1]
    | cons y front => simp [(hfront y (by simp)).2]
  unfold namespaceText?
  rw [hchild, hname]
  cases hempty : m.name.isEmpty with
  | true =>
    have hzero := String.isEmpty_iff.1 hempty
    simp [NameScope.enter, NameScope.ofNamespace, hzero]
  | false => simp [NameScope.enter, NameScope.ofNamespace, Option.filter, hempty]

/-- Behind the word `namespace` comes no backslash. -/
theorem NamespaceText.opensHead {m : NamespaceText} (hm : m.Sound) (u : Bytes) :
    ∃ w, Next (32 :: (m.nameBytes ++ 123 :: (m.bodyBytes ++ [125]) ++ u)) w ∧
      beginsWith "\\" w = false := by
  have hblank : IsGap [32] := .space rfl .nil
  rcases hm.name with hempty | hpath
  · refine ⟨123 :: (m.bodyBytes ++ [125] ++ u), ?_, rfl⟩
    simpa [NamespaceText.nameBytes, hempty] using next_append hblank
      (@beginsToken_solid 123 (m.bodyBytes ++ 125 :: u) rfl)
  · obtain ⟨s, names, hname, hs, hnames⟩ := hpath.bytes
    have hbound : Boundary (pathBytes names ++ 32 :: 123 :: (m.bodyBytes ++ 125 :: u)) :=
      boundary_path (boundary_cons rfl)
    have hlength : nameLength (s ++ (pathBytes names ++ 32 :: 123 :: (m.bodyBytes ++ 125 :: u))) ≠
        0 := by
      rw [nameLength_append hs hbound]
      simpa using hs.1
    refine ⟨_, ?_, beginsWith_name hlength rfl rfl⟩
    simpa [NamespaceText.nameBytes, isEmpty_of_isPath hpath, hname] using
      next_append hblank (beginsToken_name hlength)

/-- Behind the word `namespace`: a name or none, and a block. -/
theorem decides_namespaceParts {m : NamespaceText} (hm : m.Sound)
    (hd : ∀ t ∈ m.defaults, (IsDefaultText t ∨ IsBrokenDefault t) ∧ t.length ≤ n) :
    Decides source b (do
      let name ← if ← nextIs "\x7b" then pure [] else (fun n => [n]) <$> namespaceName
      if ← thenIs "\x7b" then return name ++ [← block (Grammar.upTo long (n + 4))]
      else
        require !name.isEmpty
        semicolon
        return name)
      (32 :: (m.nameBytes ++ 123 :: (m.bodyBytes ++ [125]))) anyRest
      (IsNamespaceParts source m) m.Readable := by
  have hblank : IsGap [32] := .space rfl .nil
  have hbody : ∀ front, IsNamespaceHead source m front → Decides source b (do
      if ← thenIs "\x7b" then return front ++ [← block (Grammar.upTo long (n + 4))]
      else
        require !front.isEmpty
        semicolon
        return front)
      (32 :: 123 :: (m.bodyBytes ++ [125])) anyRest (IsNamespaceParts source m)
      m.Readable := by
    intro front hfront
    refine Decides.look (a := true) (fun c u hr _ => ?_) ?_
    · have hnext : Next c.rest (123 :: (m.bodyBytes ++ [125]) ++ u) := by
        rw [hr]
        exact next_append hblank (beginsToken_solid rfl)
      rw [hnext.run_thenIs]
      rfl
    · exact (decides_namespaceBlock hm hd hblank).yields fun body hbody =>
        ⟨front, body, rfl, hfront, hbody⟩
  rcases hm.name with hempty | hpath
  · have hbytes : 32 :: (m.nameBytes ++ 123 :: (m.bodyBytes ++ [125])) =
        32 :: 123 :: (m.bodyBytes ++ [125]) := by
      simp [NamespaceText.nameBytes, hempty]
    rw [hbytes]
    refine Decides.look (a := true) (fun c u hr _ => ?_) (hbody [] ⟨by simp, by simp [hempty]⟩)
    have hnext : Next c.rest (123 :: (m.bodyBytes ++ [125]) ++ u) := by
      rw [hr]
      exact next_append hblank (beginsToken_solid rfl)
    rw [hnext.run_nextIs]
    rfl
  · obtain ⟨s, names, hname, hs, hnames⟩ := hpath.bytes
    have hne := isEmpty_of_isPath hpath
    have hbytes : 32 :: (m.nameBytes ++ 123 :: (m.bodyBytes ++ [125])) =
        ([32] ++ (s ++ pathBytes names)) ++ 32 :: 123 :: (m.bodyBytes ++ [125]) := by
      simp [NamespaceText.nameBytes, hne, hname]
    rw [hbytes]
    refine Decides.look (a := false) (fun c u hr _ => ?_) ?_
    · have hbound : Boundary (pathBytes names ++ (32 :: 123 :: (m.bodyBytes ++ [125]) ++ u)) :=
        boundary_path (boundary_cons rfl)
      have hlength : nameLength (s ++ (pathBytes names ++
          (32 :: 123 :: (m.bodyBytes ++ [125]) ++ u))) ≠ 0 := by
        rw [nameLength_append hs hbound]
        simpa using hs.1
      have hnext : Next c.rest (s ++ (pathBytes names ++
          (32 :: 123 :: (m.bodyBytes ++ [125]) ++ u))) := by
        have hrest : c.rest = [32] ++ (s ++ (pathBytes names ++
            (32 :: 123 :: (m.bodyBytes ++ [125]) ++ u))) := by
          rw [hr]
          simp
        rw [hrest]
        exact next_append hblank (beginsToken_name hlength)
      rw [hnext.run_nextIs, beginsWith_name hlength rfl rfl]
    have hnode : Reads source b ((fun n => [n]) <$> namespaceName) ([32] ++ (s ++ pathBytes names))
        (EndsPath b) (IsNamespaceHead source m) := by
      unfold namespaceName
      refine Reads.map ((reads_path hblank hs hnames).yields
        (q := fun x => x.kind = .namespaceName ∧ x.children = [] ∧
          x.bytes source = s ++ pathBytes names) fun x hx => ⟨rfl, rfl, hx.1⟩) ?_
      rintro x ⟨hk, hleaf, hspan⟩
      have htext : x.text source = m.name := Node.text_of_bytes (by rw [hspan, hname])
      refine ⟨by simpa using ⟨isBare_of (by rw [hk]; rfl) (by simp [hleaf]), hk⟩, ?_⟩
      simp [htext, hpath.withoutRoot, hne]
    refine hnode.thenDecides hbody fun u _ => ?_
    exact (next_append hblank (beginsToken_solid rfl)).endsPath (boundary_cons rfl) rfl

/-- The word `namespace` in front of a name or a brace begins no expression. -/
theorem stops_namespaceExpression {v : Bytes} (hv : Next (32 :: v) w)
    (hw : beginsWith "\\" w = false) :
    Stops source b (expressionStatement (Grammar.upTo long (n + 1)))
      (Utf8.bytesOf "namespace" ++ 32 :: v) := by
  have hword : BeginsStatement (Utf8.bytesOf "namespace") := by decide +kernel
  have hfolded : String.ofList (folded (Utf8.bytesOf "namespace")) = "namespace" := by
    decide +kernel
  have hbound : Boundary (32 :: v) := boundary_cons rfl
  obtain ⟨hnext, hwordAt⟩ := next_word (g := []) .nil hword.1 hfolded hbound
  have hlength : nameLength (Utf8.bytesOf "namespace" ++ 32 :: v) ≠ 0 := by
    rw [nameLength_append hword.1 hbound]
    simpa using hword.1.1
  have hname : Stops source true anyName (Utf8.bytesOf "namespace" ++ 32 :: v) := by
    unfold anyName
    refine Stops.look (a := "namespace") (fun c _ hr => ?_) ?_
    · rw [Next.run_nextWord (by rw [hr]; exact hnext), hwordAt]
    have hpath := @reads_path source true [] _ [] .nil hword.1 (by simp)
    have hnil : pathBytes [] = [] := rfl
    rw [hnil, List.append_nil] at hpath
    refine hpath.stops (hv.endsPath hbound hw) fun x hx => Stops.bind fun c _ _ => ?_
    exact run_require_false (by simp [hx.2 rfl])
  have hexpression : Stops source true
      ((Grammar.upTo long (n + 1)).expression Strength.any) (Utf8.bytesOf "namespace" ++ 32 :: v) := by
    refine Stops.bind (Stops.bind fun c hc hr => ?_)
    have hrelative : isRelativeScope (Utf8.bytesOf "namespace" ++ 32 :: v) = false := by
      rw [isRelativeScope, hwordAt, exactWordAt_front hbound]
      decide +kernel
    have hfirst : Utf8.bytesOf "namespace" ++ 32 :: v = 110 :: _ := rfl
    rw [primary_word (hr.trans hfirst) rfl (by rw [hr]; exact hlength)]
    unfold wordOperand
    rw [run_bind_some run_position]
    simp only [hr, hwordAt]
    simp only [hrelative]
    exact run_bind_none (hname hc hr)
  unfold expressionStatement
  exact stops_openGap hnext (Stops.position fun start => hexpression.withTagEnds.bind)

theorem decides_namespace {m : NamespaceText} (hm : m.Sound)
    (hd : ∀ t ∈ m.defaults, (IsDefaultText t ∨ IsBrokenDefault t) ∧ t.length ≤ n)
    (hg : IsGap g) :
    Decides source b (statementWith (Grammar.upTo long (n + 4))) (g ++ m.bytes) anyRest
      (fun x => x.IsNamespace source m) m.Readable := by
  have hword : BeginsStatement (Utf8.bytesOf "namespace") := by decide +kernel
  have hfolded : String.ofList (folded (Utf8.bytesOf "namespace")) = "namespace" := by
    decide +kernel
  refine decides_statement hg hword fun start v => ?_
  have hwordAt : wordAt (Utf8.bytesOf "namespace" ++ 32 :: v) = "namespace" := by
    rw [wordAt_append hword.1 (boundary_cons rfl), hfolded]
  have hkeyword : Reads source false (keyword "namespace") (Utf8.bytesOf "namespace") Boundary
      fun _ => True := reads_keyword (g := []) .nil hword.1 hfolded
  unfold statementAt
  simp only [hwordAt]
  refine Decides.orElse ?_ fun u _ => ?_
  · have hparts := hkeyword.thenDecides (fun _ _ => (@decides_namespaceParts source true long
      _ _ hm hd).withTagEnds) fun u _ => boundary_cons rfl
    refine (decides_nodeOf (g := []) .nil hparts fun u _ => ?_).mono (fun _ hu => hu) fun x hx =>
      isNamespace_of hx.1 hx.2.2
    rw [List.append_assoc]
    exact beginsToken_isName hword.1 (boundary_cons rfl)
  · obtain ⟨w, hnext, hw⟩ := m.opensHead hm u
    rw [List.append_assoc, List.cons_append]
    exact stops_namespaceExpression hnext hw

end FacadeStubs.Php
