import FacadeStubs.Proofs.Facts.Placement
import Mathlib.Data.List.Induction

/-!
# Namespaces do not leak

A file may have several namespaces one behind the other. Each begins with a definition, and neither the
name of the namespace nor the imports behind it reach beyond the next definition. So a file that is put
together from two parts, of which the second begins with a definition, has the declarations of both, each
as if its part stood alone.

* `classesFrom?_append`: the declarations of two rows of landmarks, with the scope between them;
* `scopeFrom?_eq_scopeOf?`: the scope at a place is that of the nearest definition before it and of the
  imports since;
* `namespaces_do_not_leak`: both, for files of two parts.
-/
namespace FacadeStubs

open Php

namespace Analysis

/-! ## Landmarks in another place -/

section

variable (p : Bytes) {t : Bytes} (q : Bytes) {n : Node}

mutual

theorem landmarks_moved (k : Nat) : ∀ n : Node,
    landmarks (n.moved k) = (landmarks n).map (Node.moved k)
  | .mk kind start stop children => by
    rw [Node.moved, landmarks, landmarks, landmarksIn_moved k children]
    split
    · rw [List.map_cons, Node.moved]
    · rfl

theorem landmarksIn_moved (k : Nat) : ∀ ns : List Node,
    landmarksIn (Node.allMoved k ns) = (landmarksIn ns).map (Node.moved k)
  | [] => rfl
  | n :: rest => by
    rw [Node.allMoved, landmarksIn, landmarksIn, landmarks_moved k n, landmarksIn_moved k rest,
      List.map_append]

end

theorem landmarksIn_append (ms : List Node) : ∀ ns : List Node,
    landmarksIn (ns ++ ms) = landmarksIn ns ++ landmarksIn ms
  | [] => rfl
  | n :: rest => by
    rw [List.cons_append, landmarksIn, landmarksIn, landmarksIn_append ms rest, List.append_assoc]

mutual

theorem landmarks_within {bound : Nat} : ∀ n : Node, n.isWithin bound = true →
    ∀ m ∈ landmarks n, m.isWithin bound = true
  | .mk kind start stop children, h => by
    have hbelow := landmarksIn_within children (Node.isWithin_mk.mp h).2.2
    rw [landmarks]
    split
    · exact List.forall_mem_cons.mpr ⟨h, hbelow⟩
    · exact hbelow

theorem landmarksIn_within {bound : Nat} : ∀ ns : List Node, (∀ n ∈ ns, n.isWithin bound = true) →
    ∀ m ∈ landmarksIn ns, m.isWithin bound = true
  | [], _ => by simp [landmarksIn]
  | n :: rest, h => by
    rw [landmarksIn]
    exact List.forall_mem_append.mpr ⟨landmarks_within n (h n List.mem_cons_self),
      landmarksIn_within rest fun c hc => h c (List.mem_cons_of_mem _ hc)⟩

end

theorem namespaceText?_moved (h : n.isWithin t.length = true) :
    namespaceText? (p ++ (t ++ q)) (n.moved p.length) = namespaceText? t n :=
  Node.map_child?_moved h .namespaceName fun c hc => by rw [text_moved p q hc]

/-- The declarations behind landmarks are the same further on, but for their lines. -/
theorem classesFrom?_moved (path : String) : ∀ (marks : List Node) (names : NameScope),
    (∀ m ∈ marks, m.isWithin t.length = true) →
    classesFrom? (p ++ (t ++ q)) path names (marks.map (Node.moved p.length)) =
      (classesFrom? t path names marks).map (List.map (ClassDecl.moved (p.count 10)))
  | [], _, _ => rfl
  | n :: rest, names, h => by
    have hn := h n List.mem_cons_self
    have ih := fun names' => classesFrom?_moved path rest names' fun m hm =>
      h m (List.mem_cons_of_mem _ hm)
    rw [List.map_cons, classesFrom?, classesFrom?, Node.kind_moved]
    split
    · rw [namespaceText?_moved p q hn]
      exact ih _
    · rw [text_moved p q hn]
      cases names.addUse? (n.text t) with
      | none => rfl
      | some names' => exact ih names'
    · rename_i kind _
      rw [ih names, classDecl?_moved p q path names kind hn]
      cases classesFrom? t path names rest with
      | none => rfl
      | some later => cases classDecl? t path names kind n <;> simp
    · exact ih names

end

/-! ## The scope at a place -/

section

variable {source : Bytes} {path : String}

/-- The scope of names behind landmarks; none if the text of an import has its braces crossed. -/
def scopeFrom? (source : Bytes) : NameScope → List Node → Option NameScope
  | names, [] => some names
  | names, n :: rest =>
    match n.kind with
    | .namespaceDefinition => scopeFrom? source (names.enter (namespaceText? source n)) rest
    | .namespaceUse => (names.addUse? (n.text source)).bind fun names' => scopeFrom? source names' rest
    | _ => scopeFrom? source names rest

/-- The declarations of two rows of landmarks: the second row starts in the scope behind the first. -/
theorem classesFrom?_append (later : List Node) : ∀ (marks : List Node) (names : NameScope),
    classesFrom? source path names (marks ++ later) =
      (scopeFrom? source names marks).bind fun names' =>
        (classesFrom? source path names marks).bind fun front =>
          (classesFrom? source path names' later).map (front ++ ·)
  | [], names => by simp [classesFrom?, scopeFrom?]
  | n :: rest, names => by
    have ih := classesFrom?_append later rest
    rw [List.cons_append, classesFrom?, classesFrom?, scopeFrom?]
    cases hkind : n.kind with
    | namespaceDefinition => exact ih _
    | namespaceUse =>
      dsimp only
      cases names.addUse? (n.text source) with
      | none => rfl
      | some names' => exact ih names'
    | declaration kind =>
      dsimp only
      rw [ih names]
      cases scopeFrom? source names rest with
      | none => rfl
      | some names' =>
        cases classesFrom? source path names rest with
        | none => rfl
        | some front => simp [Function.comp_def]
    | _ => exact ih names

/-- There is a scope behind landmarks if there are declarations. -/
theorem scopeFrom?_isSome : ∀ (marks : List Node) (names : NameScope),
    (scopeFrom? source names marks).isSome = (classesFrom? source path names marks).isSome
  | [], _ => rfl
  | n :: rest, names => by
    have ih := scopeFrom?_isSome rest
    rw [classesFrom?, scopeFrom?]
    cases hkind : n.kind with
    | namespaceDefinition => exact ih _
    | namespaceUse =>
      dsimp only
      cases names.addUse? (n.text source) with
      | none => rfl
      | some names' => exact ih names'
    | declaration kind =>
      dsimp only
      rw [Option.isSome_map]
      exact ih names
    | _ => exact ih names

/-- The namespace definition in force behind landmarks. -/
def nearestNamespace? (marks : List Node) : Option Node :=
  marks.reverse.find? fun n => n.kind == .namespaceDefinition

/-- The texts of the import declarations behind the namespace definition in force. -/
def usesSince (source : Bytes) (marks : List Node) : List String :=
  ((marks.reverse.takeWhile fun n => n.kind != .namespaceDefinition).reverse.filter fun n =>
    n.kind == .namespaceUse).map fun n => n.text source

/-- The scope that the nearest namespace definition and the imports behind it make. -/
def scopeOf? (source : Bytes) (marks : List Node) : Option NameScope :=
  (usesSince source marks).foldlM NameScope.addUse?
    (.ofNamespace ((nearestNamespace? marks).bind (namespaceText? source)))

theorem scopeFrom?_append (later : List Node) : ∀ (marks : List Node) (names : NameScope),
    scopeFrom? source names (marks ++ later) =
      (scopeFrom? source names marks).bind fun names' => scopeFrom? source names' later
  | [], _ => rfl
  | n :: rest, names => by
    have ih := scopeFrom?_append later rest
    rw [List.cons_append, scopeFrom?, scopeFrom?]
    cases hkind : n.kind with
    | namespaceDefinition => exact ih _
    | namespaceUse =>
      dsimp only
      cases names.addUse? (n.text source) with
      | none => rfl
      | some names' => exact ih names'
    | _ => exact ih names

theorem nearestNamespace?_snoc (marks : List Node) (n : Node) : nearestNamespace? (marks ++ [n]) =
    if n.kind == .namespaceDefinition then some n else nearestNamespace? marks := by
  unfold nearestNamespace?
  rw [List.reverse_append, List.reverse_singleton, List.singleton_append, List.find?_cons]
  cases n.kind == .namespaceDefinition <;> rfl

theorem usesSince_snoc (marks : List Node) (n : Node) : usesSince source (marks ++ [n]) =
    if n.kind == .namespaceDefinition then []
    else usesSince source marks ++ if n.kind == .namespaceUse then [n.text source] else [] := by
  unfold usesSince
  rw [List.reverse_append, List.reverse_singleton, List.singleton_append, List.takeWhile_cons, bne]
  cases n.kind == .namespaceDefinition with
  | true => rfl
  | false => cases huse : n.kind == .namespaceUse <;> simp [huse]

/-- Nothing but the nearest definition and the imports behind it has a part in the scope. -/
theorem scopeFrom?_eq_scopeOf? {marks : List Node} {names : NameScope}
    (h : scopeFrom? source {} marks = some names) : scopeOf? source marks = some names := by
  induction marks using List.reverseRecOn generalizing names with
  | nil => exact h
  | append_singleton marks n ih =>
    rw [scopeFrom?_append] at h
    obtain ⟨before, hbefore, hstep⟩ := Option.bind_eq_some_iff.1 h
    have hscope := ih hbefore
    unfold scopeOf? at hscope ⊢
    rw [scopeFrom?] at hstep
    rw [nearestNamespace?_snoc, usesSince_snoc]
    cases hkind : n.kind with
    | namespaceDefinition =>
      rw [hkind] at hstep
      exact hstep
    | namespaceUse =>
      rw [hkind] at hstep
      obtain ⟨names', hadd, hlast⟩ := Option.bind_eq_some_iff.1 hstep
      cases hlast
      change (usesSince source marks ++ [n.text source]).foldlM NameScope.addUse? _ = _
      rw [List.foldlM_append]
      exact Option.bind_eq_some_iff.2 ⟨before, hscope, by simpa using hadd⟩
    | _ =>
      rw [hkind] at hstep
      cases hstep
      change (usesSince source marks ++ []).foldlM NameScope.addUse? _ = _
      rw [List.append_nil]
      exact hscope

/-- A row of landmarks that begins with a namespace definition has the same declarations behind any
other row. -/
theorem classesFrom?_definition {later : List Node} (names : NameScope)
    (h : later.head?.any (·.kind == .namespaceDefinition) = true) :
    classesFrom? source path names later = classesFrom? source path {} later := by
  cases later with
  | nil => rfl
  | cons n rest =>
    have hkind : n.kind = .namespaceDefinition := by simpa using h
    rw [classesFrom?, classesFrom?, hkind]
    rfl

end

/-! ## Files of two parts -/

/-- A part of a file: its text, and the nodes in it, with positions from the start of the text. -/
structure Part where
  text : Bytes
  nodes : List Node
  within : Node.areWithin text.length nodes = true

namespace Part

/-- A part behind another one. -/
def append (a b : Part) : Part where
  text := a.text ++ b.text
  nodes := a.nodes ++ Node.allMoved a.text.length b.nodes
  within := by
    refine Node.areWithin_iff.mpr (List.forall_mem_append.mpr ⟨?_, ?_⟩) <;>
      rw [List.length_append]
    · exact Node.areWithin_iff.mp (Node.areWithin_mono (Nat.le_add_right _ _) a.within)
    · exact Node.areWithin_iff.mp (Node.areWithin_moved _ b.within)

/-- The file of a part, behind what opens a file. -/
def source (opening : Bytes) (a : Part) : Bytes := opening ++ a.text

/-- The tree of the file of a part. -/
def tree (opening : Bytes) (a : Part) : Node :=
  .mk .program 0 (a.source opening).length (Node.allMoved opening.length a.nodes)

/-- The facts of the file of a part. -/
def facts? (path : String) (opening : Bytes) (a : Part) : Option FileFacts :=
  treeFacts? path (a.source opening) (a.tree opening)

/-- The nodes of a part that matter for its facts. -/
def marks (a : Part) : List Node := landmarksIn a.nodes

/-- Whether a namespace definition stands in a part. -/
def definesNamespace (a : Part) : Bool :=
  a.marks.any fun n => n.kind == .namespaceDefinition

/-- Nothing that matters stands in front of the first namespace definition of a part. -/
def OpensNamespace (a : Part) : Prop :=
  a.marks.head?.any (·.kind == .namespaceDefinition) = true

instance (a : Part) : Decidable a.OpensNamespace := inferInstanceAs (Decidable (_ = true))

theorem within_marks (a : Part) : ∀ m ∈ a.marks, m.isWithin a.text.length = true :=
  landmarksIn_within a.nodes (Node.areWithin_iff.mp a.within)

theorem marks_append (a b : Part) :
    (a.append b).marks = a.marks ++ b.marks.map (Node.moved a.text.length) := by
  rw [marks, append, landmarksIn_append, landmarksIn_moved]
  rfl

/-- The declarations of a part alone. -/
def classes? (path : String) (a : Part) : Option (List ClassDecl) :=
  classesFrom? a.text path {} a.marks

/-- The first namespace that a part alone defines. -/
def namespaceName? (a : Part) : Option String :=
  (a.marks.find? fun n => n.kind == .namespaceDefinition).bind (namespaceText? a.text)

/-- The declarations of a file are those of its part, behind the lines that open the file. -/
theorem facts?_eq (path : String) (opening : Bytes) (a : Part) : a.facts? path opening =
    (a.classes? path).map fun classes =>
      { path, namespaceName := a.namespaceName?
        classes := classes.map (ClassDecl.moved (opening.count 10)) } := by
  have hmarks : landmarks (a.tree opening) = a.marks.map (Node.moved opening.length) := by
    rw [tree, landmarks, landmarksIn_moved]
    rfl
  have hsource : a.source opening = opening ++ (a.text ++ []) := by rw [source, List.append_nil]
  have hname : ((landmarks (a.tree opening)).find? fun n => n.kind == .namespaceDefinition).bind
      (namespaceText? (a.source opening)) = a.namespaceName? := by
    rw [hmarks, hsource, namespaceName?, List.find?_map]
    simp only [Function.comp_def, Node.kind_moved]
    cases hfound : a.marks.find? fun n => n.kind == .namespaceDefinition with
    | none => rw [Option.map_none, Option.bind_none, Option.bind_none]
    | some n => exact namespaceText?_moved opening [] (a.within_marks n (List.mem_of_find?_eq_some hfound))
  unfold facts? treeFacts?
  dsimp only
  rw [hname, hmarks, hsource, classesFrom?_moved opening [] path a.marks {} a.within_marks, classes?,
    Option.map_map]
  rfl

/-- Behind another part a part that opens a namespace has the declarations that it has alone. -/
theorem classes?_append (path : String) (a : Part) {b : Part} (h : b.OpensNamespace) :
    (a.append b).classes? path = (a.classes? path).bind fun front =>
      (b.classes? path).map fun back => front ++ back.map (ClassDecl.moved (a.text.count 10)) := by
  have hfront : classesFrom? (a.text ++ b.text) path {} a.marks = a.classes? path := by
    have hmoved := classesFrom?_moved [] b.text path a.marks {} a.within_marks
    have hnodes : Node.moved 0 = id := funext Node.moved_zero
    have hdecls : ClassDecl.moved 0 = id := funext ClassDecl.moved_zero
    simpa [hnodes, hdecls, classes?] using hmoved
  have hback : classesFrom? (a.text ++ b.text) path {} (b.marks.map (Node.moved a.text.length)) =
      (b.classes? path).map (List.map (ClassDecl.moved (a.text.count 10))) := by
    simpa [classes?] using classesFrom?_moved a.text [] path b.marks {} b.within_marks
  have hopens : (b.marks.map (Node.moved a.text.length)).head?.any (·.kind == .namespaceDefinition) =
      true := by
    rw [List.head?_map, Option.any_map]
    simp only [Node.kind_moved]
    exact h
  have hscope : (scopeFrom? (a.text ++ b.text) {} a.marks).isSome =
      (classesFrom? (a.text ++ b.text) path {} a.marks).isSome := scopeFrom?_isSome a.marks {}
  have hall : (a.append b).classes? path = classesFrom? (a.text ++ b.text) path {}
      (a.marks ++ b.marks.map (Node.moved a.text.length)) := by
    rw [classes?, marks_append]
    rfl
  rw [hall, classesFrom?_append]
  simp only [classesFrom?_definition _ hopens, hback, hfront]
  rw [hfront] at hscope
  cases hclasses : a.classes? path with
  | none =>
    rw [hclasses, Option.isSome_none, Option.isSome_eq_false_iff, Option.isNone_iff_eq_none] at hscope
    rw [hscope]
    rfl
  | some front =>
    rw [hclasses] at hscope
    obtain ⟨names, hnames⟩ := Option.isSome_iff_exists.mp hscope
    rw [hnames, Option.bind_some, Option.bind_some, Option.bind_some, Option.map_map]
    rfl

theorem namespaceName?_append (a b : Part) : (a.append b).namespaceName? =
    if a.definesNamespace then a.namespaceName? else b.namespaceName? := by
  have hfront : ∀ n ∈ a.marks, namespaceText? (a.text ++ b.text) n = namespaceText? a.text n :=
    fun n hn => by
      simpa [Node.moved_zero] using namespaceText?_moved [] b.text (a.within_marks n hn)
  have hback : ∀ n ∈ b.marks, namespaceText? (a.text ++ b.text) (n.moved a.text.length) =
      namespaceText? b.text n :=
    fun n hn => by simpa using namespaceText?_moved a.text [] (b.within_marks n hn)
  have hsome : (a.marks.find? fun n => n.kind == .namespaceDefinition).isSome = a.definesNamespace := by
    rw [definesNamespace, Bool.eq_iff_iff, List.find?_isSome, List.any_eq_true]
  unfold namespaceName?
  rw [marks_append, List.find?_append, List.find?_map, ← hsome]
  simp only [Function.comp_def, Node.kind_moved]
  cases hfound : a.marks.find? fun n => n.kind == .namespaceDefinition with
  | some n => exact hfront n (List.mem_of_find?_eq_some hfound)
  | none =>
    cases hlater : b.marks.find? fun n => n.kind == .namespaceDefinition with
    | none => simp only [Option.map_none, Option.or_none, Option.bind_none, ite_self]
    | some n => exact hback n (List.mem_of_find?_eq_some hlater)

end Part

/-- The declaration that a landmark is read as has nothing from the others but the scope of the nearest
namespace definition and the imports behind it. -/
theorem classes_at {path : String} {source : Bytes} {tree : Node} {facts : FileFacts}
    (hfacts : treeFacts? path source tree = some facts) {before after : List Node} {n : Node}
    {kind : ClassKind} (hmarks : landmarks tree = before ++ n :: after)
    (hkind : n.kind = .declaration kind) :
    ∃ names front back, scopeOf? source before = some names ∧
      classesFrom? source path {} before = some front ∧
      facts.classes = front ++ (classDecl? source path names kind n).toList ++ back := by
  obtain ⟨classes, hclasses, rfl⟩ := Option.map_eq_some_iff.1 hfacts
  rw [hmarks, classesFrom?_append] at hclasses
  obtain ⟨names, hnames, hrest⟩ := Option.bind_eq_some_iff.1 hclasses
  obtain ⟨front, hfront, hlater⟩ := Option.bind_eq_some_iff.1 hrest
  obtain ⟨later, hdecl, rfl⟩ := Option.map_eq_some_iff.1 hlater
  rw [classesFrom?, hkind] at hdecl
  obtain ⟨back, -, rfl⟩ := Option.map_eq_some_iff.1 hdecl
  exact ⟨names, front, back, scopeFrom?_eq_scopeOf? hnames, hfront, (List.append_assoc _ _ _).symm⟩

/-- Namespaces do not leak into each other.

Let a file be made of two parts, behind whatever opens a file, and let the second part begin with a
namespace definition. The declarations of the file are those of the first part and those of the second,
each read alone; only the lines of the second part move, by the lines of the first. The namespace of the
file is the first one that it defines. If the text of an import has its braces crossed in either part,
there is no answer.

So in any file the declaration that a node is read as depends, beside the node, on the nearest namespace
definition before it and on the imports between the two. Where the grammar gives a file the tree of its
part, these are the facts of the file. -/
theorem namespaces_do_not_leak [Recovery] (path : String) (opening : Bytes) (a : Part) {b : Part}
    (h : b.OpensNamespace) :
    ((a.append b).facts? path opening = (a.facts? path opening).bind fun front =>
      (b.facts? path opening).map fun back =>
        { path
          namespaceName := if a.definesNamespace then front.namespaceName else back.namespaceName
          classes := front.classes ++ back.classes.map (ClassDecl.moved (a.text.count 10)) }) ∧
    (∀ source tree facts, treeFacts? path source tree = some facts → ∀ before n after kind,
      landmarks tree = before ++ n :: after → n.kind = .declaration kind →
      ∃ names front back, scopeOf? source before = some names ∧
        classesFrom? source path {} before = some front ∧
        facts.classes = front ++ (classDecl? source path names kind n).toList ++ back) ∧
    ∀ c : Part, parse? (c.source opening) = some (c.tree opening) →
      fileFacts? path (c.source opening) = c.facts? path opening := by
  refine ⟨?_, fun source tree facts hfacts before n after kind hmarks hkind =>
    classes_at hfacts hmarks hkind, fun c hparse => ?_⟩
  · rw [Part.facts?_eq, Part.facts?_eq, Part.facts?_eq, Part.classes?_append path a h,
      Part.namespaceName?_append]
    cases a.classes? path with
    | none => rfl
    | some front =>
      cases b.classes? path with
      | none => rfl
      | some back => simp [Function.comp_def, ClassDecl.moved_moved, Nat.add_comm]
  · rw [fileFacts?, hparse]
    rfl

/-- A class below an imported one. -/
def importingPart : Part where
  text := Utf8.bytesOf "namespace A;\nuse X\\Y;\nclass C extends Y \x7b\x7d\n"
  nodes :=
    [.mk .namespaceDefinition 0 12 [.mk .namespaceName 10 11 []],
     .mk .namespaceUse 13 21 [],
     .mk (.declaration .cls) 22 42
      [.mk .name 28 29 [], .mk .baseClause 30 39 [.mk .name 38 39 []], .mk .memberList 40 42 []]]
  within := by decide +kernel

/-- A class below one of the same name in another namespace. -/
def plainPart : Part where
  text := Utf8.bytesOf "namespace B;\nclass D extends Y \x7b\x7d\n"
  nodes :=
    [.mk .namespaceDefinition 0 12 [.mk .namespaceName 10 11 []],
     .mk (.declaration .cls) 13 33
      [.mk .name 19 20 [], .mk .baseClause 21 30 [.mk .name 29 30 []], .mk .memberList 31 33 []]]
  within := by decide +kernel

/-- The import of the first namespace does not hold in the second one. -/
theorem namespaces_do_not_leak_two :
    plainPart.OpensNamespace ∧
    ((@fileFacts? .nothing "f.php"
        ((importingPart.append plainPart).source (Utf8.bytesOf "<?php\n"))).map fun facts =>
      (facts.namespaceName, facts.classes.map fun d => (d.fqn, d.extendsNames, d.line))) =
        some (some "A", [("A\\C", ["X\\Y"], 4), ("B\\D", ["B\\Y"], 6)]) := by
  have hopens : plainPart.OpensNamespace := by decide +kernel
  obtain ⟨hjoined, -, hparse⟩ :=
    @namespaces_do_not_leak .nothing "f.php" (Utf8.bytesOf "<?php\n") importingPart _ hopens
  have hfile := hparse (importingPart.append plainPart) (by decide +kernel)
  refine ⟨hopens, ?_⟩
  rw [hfile, hjoined]
  decide +kernel

end Analysis

end FacadeStubs
