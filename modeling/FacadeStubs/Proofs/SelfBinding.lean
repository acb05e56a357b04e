import FacadeStubs.Generation
import FacadeStubs.Proofs.MethodTable
import FacadeStubs.Proofs.MissingNames

/-!
# The class that `self` names

The keyword `self` is bound where a file is analysed, to the declaration in whose body it stands. A
method that a class takes from a trait therefore keeps referring to the trait: in a stub its default
`self::N` is the trait's own constant, and so is the service key of an accessor. Constants of the class
that uses the trait are not looked at. Types are bound later, to the class that has the method.

Results:
* `exists_origin`: every declaration of an index of sources was analysed from one of them.
* `constantOf_own`: an expression `self::N` is the constant of the declaration that it stands in.
* `constant?_of_trait`: a trait has the constants that it declares, and no others.
* `self_names_declaring_class`: what defaults and service keys of a class's methods refer to.
-/
namespace FacadeStubs

open Php Analysis ClassIndex Facade

/-! ## Expressions and the nodes they are analysed from -/

/-- The nodes of the parameters of a method. -/
def Php.Node.parameterNodes (n : Node) : List Node :=
  ((n.child? .parameters).map Node.children).getD []

/-- The nodes in the body of a declaration. -/
def Php.Node.members (n : Node) : List Node := ((n.child? .memberList).map Node.children).getD []

/-- The node of the default of a parameter. -/
def Php.Node.defaultNode? (n : Node) : Option Node :=
  (n.child? .defaultValue).bind fun d => d.children.head?

/-- The node behind the first `return` of a method. -/
def Php.Node.returnNode? (n : Node) : Option Node :=
  (n.child? .block).bind fun b => (b.child? .returnStatement).bind fun r => r.children.head?

/-- A reference to a constant of the class that it stands in, by the keyword `self`. -/
def Php.Node.IsOwnConstant (source : Bytes) (n : Node) (name : String) : Prop :=
  ∃ start stop qualifier member, n = .mk .classConstant start stop [qualifier, member] ∧
    lowerCase (qualifier.text source) = "self" ∧ member.text source = name ∧
    Export.isClassWord name = false

/-- A method as it was analysed: from a node in a source file, in the body of a declaration. -/
structure Method.AnalysedFrom (m : Method) (files : List SourceFile) (d : ClassDecl) (source : Bytes)
    (scope : ClassScope) (node : Node) : Prop where
  file : ∃ f ∈ files, f.content = source
  own : scope.cls = d.fqn
  analysed : Analysis.method? source scope d.kind node = some m

section
variable {source : Bytes} {scope : ClassScope} {n : Node}

theorem constantOf_own {name : String} (h : n.IsOwnConstant source name) :
    constantOf source scope n = .classConst scope.cls name := by
  obtain ⟨start, stop, qualifier, member, rfl, hself, rfl, hword⟩ := h
  have hclass : (lowerCase (member.text source) == "class") = false := hword
  have hvalue : classConstant? scope (qualifier.text source) (member.text source) =
      some (.classConst scope.cls (member.text source)) := by
    unfold classConstant?
    rw [hself]
    simp [hclass]
  simp only [constantOf, hvalue, Option.getD_some]

theorem default_of_param? {p : Param} (h : param? source scope n = some p) :
    p.default = n.defaultNode?.map (constantOf source scope) := by
  unfold param? at h
  split at h
  · obtain ⟨name, -, rfl⟩ := Option.map_eq_some_iff.1 h
    simp only [Node.defaultNode?, Option.map_bind]
    rfl
  · cases h

variable {kind : ClassKind} {m : Method}

theorem params_of_method? (h : Analysis.method? source scope kind n = some m) :
    m.params = n.parameterNodes.filterMap (param? source scope) := by
  obtain ⟨name, -, rfl⟩ := Option.map_eq_some_iff.1 h
  unfold Node.parameterNodes
  cases n.child? .parameters <;> rfl

theorem constantReturn_of_method? (h : Analysis.method? source scope kind n = some m) :
    m.constantReturn = n.returnNode?.map (constantOf source scope) := by
  obtain ⟨name, -, rfl⟩ := Option.map_eq_some_iff.1 h
  have hbody : ∀ b, firstReturn? source scope b = ((b.child? .returnStatement).bind fun r =>
      r.children.head?).map (constantOf source scope) := fun b => by
    rw [firstReturn?, Option.map_bind]
    rfl
  rw [Node.returnNode?, Option.map_bind]
  exact congrArg (Option.bind _) (funext hbody)

end

/-! ## Declarations and their sources -/

section
variable {source : Bytes} {path : String} {d : ClassDecl}

/-- The declarations of a file are those of its nodes. -/
theorem exists_of_mem_classesFrom? : ∀ {marks : List Node} {names : NameScope} {ds : List ClassDecl},
    classesFrom? source path names marks = some ds → d ∈ ds →
      ∃ names' kind, ∃ n ∈ marks, n.kind = .declaration kind ∧ classDecl? source path names' kind n = some d
  | [], _, ds, h, hd => by
    cases h
    cases hd
  | n :: rest, names, ds, h, hd => by
    have hlater : ∀ {names ds}, classesFrom? source path names rest = some ds → d ∈ ds →
        ∃ names' kind, ∃ m ∈ n :: rest,
          m.kind = .declaration kind ∧ classDecl? source path names' kind m = some d := by
      intro names ds h hd
      obtain ⟨names', kind, m, hm, hdecl⟩ := exists_of_mem_classesFrom? h hd
      exact ⟨names', kind, m, List.mem_cons_of_mem _ hm, hdecl⟩
    rw [classesFrom?] at h
    split at h
    · exact hlater h hd
    · obtain ⟨names', -, h⟩ := Option.bind_eq_some_iff.1 h
      exact hlater h hd
    · rename_i kind hkind
      obtain ⟨later, hrest, rfl⟩ := Option.map_eq_some_iff.1 h
      obtain hd | hd := List.mem_append.1 hd
      · exact ⟨names, kind, n, List.mem_cons_self, hkind, Option.mem_toList.1 hd⟩
      · exact hlater hrest hd
    · exact hlater h hd

theorem exists_of_mem_treeFacts? {tree : Node} {facts : FileFacts}
    (h : treeFacts? path source tree = some facts) (hd : d ∈ facts.classes) :
    ∃ names kind, ∃ n ∈ landmarks tree,
      n.kind = .declaration kind ∧ classDecl? source path names kind n = some d := by
  obtain ⟨ds, hds, rfl⟩ := Option.map_eq_some_iff.1 h
  exact exists_of_mem_classesFrom? hds hd

theorem exists_of_mem_fileFacts? [Recovery] {facts : FileFacts} (h : fileFacts? path source = some facts)
    (hd : d ∈ facts.classes) : ∃ names kind n, classDecl? source path names kind n = some d := by
  have hfound : ∀ {tree facts}, treeFacts? path source tree = some facts → d ∈ facts.classes →
      ∃ names kind n, classDecl? source path names kind n = some d := by
    intro tree facts h hd
    obtain ⟨names, kind, n, -, -, hdecl⟩ := exists_of_mem_treeFacts? h hd
    exact ⟨names, kind, n, hdecl⟩
  unfold fileFacts? at h
  split at h
  · obtain ⟨recovered, hrecovered, rfl⟩ := Option.map_eq_some_iff.1 h
    exact hfound hrecovered hd
  · exact hfound h hd

/-- The methods of a declaration are analysed with `self` bound to it, from the nodes in its body. -/
theorem exists_of_mem_methods {names : NameScope} {kind : ClassKind} {n : Node} {m : Method}
    (h : classDecl? source path names kind n = some d) (hm : m ∈ d.methods) :
    ∃ scope, ∃ node ∈ n.members, node.kind = .method ∧ scope.cls = d.fqn ∧
      Analysis.method? source scope d.kind node = some m := by
  unfold classDecl? at h
  obtain ⟨name, -, h⟩ := Option.bind_eq_some_iff.1 h
  dsimp only at h
  split at h
  · cases h
  · cases h
    obtain ⟨node, hmem, hnode⟩ := List.mem_filterMap.1 hm
    obtain ⟨hmem, hkind⟩ := List.mem_filter.1 hmem
    exact ⟨_, node, hmem, by simpa using hkind, rfl, hnode⟩

end

theorem mem_decls_foldl_insert {d : ClassDecl} {ds : List ClassDecl} {index : ClassIndex}
    (h : d ∈ (ds.foldl ClassIndex.insert index).decls) : d ∈ index.decls ∨ d ∈ ds := by
  induction ds generalizing index with
  | nil => exact .inl h
  | cons e ds ih =>
    obtain h | h := ih h
    · unfold ClassIndex.insert at h
      split at h
      · exact .inl h
      · obtain h | h := List.mem_append.1 h
        · exact .inl h
        · exact .inr (List.mem_cons.2 (.inl (List.mem_singleton.1 h)))
    · exact .inr (List.mem_cons_of_mem e h)

/-- Every declaration of an index of sources is a fact of one of them. -/
theorem exists_facts [Recovery] {base : String} {d : ClassDecl} : ∀ {files : List SourceFile}
    {index index' : ClassIndex}, index.addSources? base files = some index' → d ∈ index'.decls →
      d ∈ index.decls ∨ ∃ f ∈ files, ∃ path facts,
        fileFacts? path f.content = some facts ∧ d ∈ facts.classes
  | [], index, index', h, hd => by
    cases h
    exact .inl hd
  | f :: rest, index, index', h, hd => by
    obtain ⟨i, hi, h⟩ := Option.bind_eq_some_iff.1 h
    obtain hd | ⟨g, hg, hfacts⟩ := exists_facts h hd
    · obtain ⟨facts, hfacts, rfl⟩ := Option.map_eq_some_iff.1 hi
      obtain hd | hd := mem_decls_foldl_insert hd
      · exact .inl hd
      · exact .inr ⟨f, List.mem_cons_self, _, facts, hfacts, hd⟩
    · exact .inr ⟨g, List.mem_cons_of_mem f hg, hfacts⟩

/-- Every declaration of an index of sources was analysed from one of them. -/
theorem exists_origin [Recovery] {base : String} {files : List SourceFile} {index : ClassIndex}
    (h : ({} : ClassIndex).addSources? base files = some index) {d : ClassDecl} (hd : d ∈ index.decls) :
    ∃ f ∈ files, ∃ path names kind n, classDecl? f.content path names kind n = some d := by
  obtain hd | ⟨f, hf, path, facts, hfacts, hd⟩ := exists_facts h hd
  · cases hd
  · exact ⟨f, hf, path, exists_of_mem_fileFacts? hfacts hd⟩

/-- Every method of an index of sources was analysed from a node in one of them. -/
theorem exists_analysedFrom [Recovery] {base : String} {files : List SourceFile} {index : ClassIndex}
    (h : ({} : ClassIndex).addSources? base files = some index) {d : ClassDecl} (hd : d ∈ index.decls)
    {m : Method} (hm : m ∈ d.methods) : ∃ source scope node, m.AnalysedFrom files d source scope node := by
  obtain ⟨f, hf, path, names, kind, n, hdecl⟩ := exists_origin h hd
  obtain ⟨scope, node, -, -, hown, hmethod⟩ := exists_of_mem_methods hdecl hm
  exact ⟨f.content, scope, node, ⟨f, hf, rfl⟩, hown, hmethod⟩

/-! ## What `self` refers to -/

section
variable {index : ClassIndex} {c N : String}

theorem breadthFirst_nil (next : String → List String) (fuel : Nat) (seen : List String) :
    breadthFirst next fuel seen [] = [] := by
  cases fuel <;> rfl

/-- A trait extends and implements nothing, and so has the constants that it declares. -/
theorem constant?_of_trait {t : String} {d : ClassDecl} (hd : index.get? t = some d)
    (hkind : d.kind = .trait) (hnone : d.implementsNames = []) (name : String) :
    index.constant? t name = d.constant? name := by
  have hparent : index.parent? t = none := by
    rw [parent?, hd]
    simp [hkind]
  have hancestors : index.ancestors t = [] := by
    unfold ancestors
    cases index.size with
    | zero => rfl
    | succ fuel => rw [climb, hparent]
  have hdirect : index.directInterfaces t = [] := by
    simp [directInterfaces, hd, hkind, hnone, hancestors]
  have hinterfaces : index.interfaces t = [] := by
    simp only [interfaces, hdirect, breadthFirst_nil]
  simp [constant?, hancestors, hinterfaces, hd]

/-- A constant that is not found is exported by its full name. -/
theorem text_of_unknown (hN : Export.isClassWord N = false) (h : index.constant? c N = none) :
    Export.text index (.classConst c N) = "\\" ++ c ++ "::" ++ N := by
  have hfollow : ∀ restart, (Export.levelAt index restart Export.maxDepth).follow c N = none :=
    fun _ => h
  have hvalue : Export.text? index (.classConst c N) = some ("\\" ++ c ++ "::" ++ N) := by
    rw [Export.text?, Export.textWithin?, Export.value?, Export.constantText?]
    simp only [hfollow, Export.referenceText, hN, Bool.false_eq_true, if_false]
  rw [Export.text, hvalue]
  rfl

end

/-- The service key that a constant of a class is for a facade. -/
def Facade.constantKey (index : ClassIndex) (facade : ClassDecl) (c name : String) :
    Except Error String :=
  match (index.constant? c name).bind (key? index facade.fqn (Export.maxDepth - 1)) with
  | some key => .ok key
  | none => .error (.accessorUnresolved facade.fqn)

theorem key?_maxDepth (index : ClassIndex) (called c name : String) :
    key? index called Export.maxDepth (.classConst c name) =
      (index.constant? c name).bind (key? index called (Export.maxDepth - 1)) := by
  have hdepth : Export.maxDepth = 7 + 1 := rfl
  rw [hdepth, Nat.add_sub_cancel, key?, keyWith]

/-- A method's references `self::N` name a constant of the declaration `d`, whatever class `S` has the
method. -/
structure SelfNames (index : ClassIndex) (S : String) (m : Method) (d : ClassDecl) (source : Bytes)
    (scope : ClassScope) (node : Node) (N : String) : Prop where
  default : ∀ n ∈ node.parameterNodes, ∀ e p, n.defaultNode? = some e → e.IsOwnConstant source N →
    param? source scope n = some p → p ∈ m.params ∧ (p.variadic = false →
      StubMethod.defaultPart index true p = " = " ++ Export.text index (.classConst d.fqn N))
  accessor : ∀ e facade, node.returnNode? = some e → e.IsOwnConstant source N → facade.fqn = S →
    Named accessorMethod m → m.isStatic = true →
    accessorKey index facade = constantKey index facade d.fqn N

/-- A method's references name constants of the declaration that it was analysed in. -/
theorem Method.AnalysedFrom.selfNames {index : ClassIndex} {S : String} {m : Method}
    {files : List SourceFile} {d : ClassDecl} {source : Bytes} {scope : ClassScope} {node : Node}
    (h : m.AnalysedFrom files d source scope node) (hm : m ∈ index.methodsOf S) (N : String) :
    SelfNames index S m d source scope node N := by
  refine ⟨fun n hn e p he hown hp => ⟨?_, fun hvariadic => ?_⟩, ?_⟩
  · rw [params_of_method? h.analysed]
    exact List.mem_filterMap.2 ⟨n, hn, hp⟩
  · have hdefault : p.default = some (.classConst d.fqn N) := by
      rw [default_of_param? hp, he, Option.map_some, constantOf_own hown, h.own]
    simp [StubMethod.defaultPart, hdefault, hvariadic]
  · rintro e facade he hown rfl hnamed hstatic
    have hfound : index.findMethod? facade.fqn accessorMethod = some m :=
      findMethod?_eq_some_iff.2 ⟨hm, hnamed⟩
    have hreturn : m.constantReturn = some (.classConst d.fqn N) := by
      rw [constantReturn_of_method? h.analysed, he, Option.map_some, constantOf_own hown, h.own]
    have hkey : ((index.findMethod? facade.fqn accessorMethod).bind fun m =>
        if m.isStatic then m.constantReturn.bind (key? index facade.fqn Export.maxDepth) else none) =
        (index.constant? d.fqn N).bind (key? index facade.fqn (Export.maxDepth - 1)) := by
      rw [hfound, Option.bind_some, if_pos hstatic, hreturn, Option.bind_some, key?_maxDepth]
    cases hfollowed : (index.constant? d.fqn N).bind (key? index facade.fqn (Export.maxDepth - 1)) with
    | some key => simp only [accessorKey, constantKey, hkey, hfollowed]
    | none => simp only [accessorKey, constantKey, hkey, hfollowed]

/-- Every method of a class is declared by a class of its chain or by a trait that these use. -/
theorem exists_declares {index : ClassIndex} {S : String} {m : Method} (hm : m ∈ index.methodsOf S) :
    ∃ t d, index.get? t = some d ∧ m ∈ d.methods ∧
      (d ∈ index.chain S ∨ ∃ c ∈ index.chain S, Reachable index.traitsOf c.traits t) := by
  obtain ⟨c, hc, hprovides⟩ := List.mem_flatMap.1 ((firstOfEachName_sublist _ _).subset hm)
  obtain hown | ⟨t, d, ht, hd, hmd⟩ := mem_contributed_iff.1 hprovides
  · obtain ⟨t, -, ht⟩ := mem_chain_iff.1 hc
    exact ⟨t, c, ht, hown, .inl hc⟩
  · exact ⟨t, d, hd, hmd, .inr ⟨c, hc, ht⟩⟩

/-- In an index of sources every method of a class comes from the class, a parent, or a trait that
these use, directly or through other traits. Wherever it comes from, it was analysed there, and its
references `self::N` name the constant of that declaration. A trait has the constants that it declares:
where it declares none of the name, a default stays a reference to the trait and a service key is not
found, whatever the class that uses the trait declares. -/
theorem self_names_declaring_class [Recovery] {base : String} {files : List SourceFile} {index : ClassIndex}
    (h : ({} : ClassIndex).addSources? base files = some index) {S : String} {m : Method}
    (hm : m ∈ index.methodsOf S) :
    (∃ t d, index.get? t = some d ∧ m ∈ d.methods ∧
      (d ∈ index.chain S ∨ ∃ c ∈ index.chain S, Reachable index.traitsOf c.traits t)) ∧
    ∀ t d, index.get? t = some d → m ∈ d.methods →
      (∃ source scope node, m.AnalysedFrom files d source scope node ∧
        ∀ N, SelfNames index S m d source scope node N) ∧
      (d.kind = .trait → d.implementsNames = [] → ∀ N, index.constant? d.fqn N = d.constant? N) ∧
      ∀ N, Export.isClassWord N = false → index.constant? d.fqn N = none →
        Export.text index (.classConst d.fqn N) = "\\" ++ d.fqn ++ "::" ++ N ∧
        ∀ facade, constantKey index facade d.fqn N = .error (.accessorUnresolved facade.fqn) := by
  refine ⟨exists_declares hm, fun t d ht hmd => ⟨?_, fun hkind hnone => ?_, fun N hN hunknown => ?_⟩⟩
  · obtain ⟨source, scope, node, hanalysed⟩ := exists_analysedFrom h (mem_decls_of_get? ht) hmd
    exact ⟨source, scope, node, hanalysed, hanalysed.selfNames hm⟩
  · have hself : index.get? d.fqn = some d := get?_fqn_of_get? ht
    exact constant?_of_trait hself hkind hnone
  · refine ⟨text_of_unknown hN hunknown, fun facade => ?_⟩
    rw [constantKey, hunknown, Option.bind_none]

/-- A trait whose method and accessor name a constant that the class using the trait declares. -/
def sharedSource : Bytes := Utf8.bytesOf ("<?php trait T\x7bfunction f($x=self::N)\x7b\x7d" ++
  "static function getFacadeAccessor()\x7breturn self::N;\x7d\x7d" ++
  "class S\x7buse T;const N='svc';\x7d")

def sharedIndex : ClassIndex :=
  (@ClassIndex.addSources? .nothing {} "" [⟨"s.php", ["s.php"], sharedSource⟩]).getD {}

/-- What the index of the trait and the class is, by computation. -/
theorem sharedIndex_computed :
    (@ClassIndex.addSources? .nothing {} "" [⟨"s.php", ["s.php"], sharedSource⟩]).isSome = true ∧
      (sharedIndex.methodsOf "S").head?.map Method.name = some "f" ∧
      (sharedIndex.decls.all fun t => t.methods.isEmpty || t.fqn == "T") = true ∧
      Export.text sharedIndex (.classConst "S" "N") = "'svc'" ∧
      (StubClass.build "" "F" "S" sharedIndex).methods.map (·.params) = ["$x = \\T::N"] ∧
      (sharedIndex.get? "S").map (accessorKey sharedIndex) =
        some (.error (.accessorUnresolved "S")) := by
  decide +kernel

theorem sharedIndex_built :
    @ClassIndex.addSources? .nothing {} "" [⟨"s.php", ["s.php"], sharedSource⟩] = some sharedIndex := by
  obtain ⟨index, hindex⟩ := Option.isSome_iff_exists.1 sharedIndex_computed.1
  rw [sharedIndex, hindex, Option.getD_some]

/-- The method of the trait names the trait in the class that uses it. -/
theorem self_names_shared_trait : ∃ m d source scope node, m ∈ sharedIndex.methodsOf "S" ∧
    m.name = "f" ∧ d.fqn = "T" ∧ SelfNames sharedIndex "S" m d source scope node "N" := by
  obtain ⟨-, hnames, howners, -⟩ := sharedIndex_computed
  obtain ⟨m, hhead, hname⟩ := Option.map_eq_some_iff.1 hnames
  have hm := List.mem_of_head? hhead
  obtain ⟨⟨t, d, hd, hmd, -⟩, hall⟩ := @self_names_declaring_class .nothing _ _ _ sharedIndex_built _ _ hm
  obtain ⟨⟨source, scope, node, -, hself⟩, -⟩ := hall t d hd hmd
  have howner := List.all_eq_true.1 howners d (mem_decls_of_get? hd)
  rw [Bool.or_eq_true, List.isEmpty_iff, beq_iff_eq] at howner
  obtain hnone | hfqn := howner
  · rw [hnone] at hmd
    cases hmd
  · exact ⟨m, d, source, scope, node, hm, hname, hfqn, hself "N"⟩

/-- The class has a value for the constant, yet neither the stub of the class nor its service key has
it. -/
theorem self_misses_using_class :
    Export.text sharedIndex (.classConst "S" "N") = "'svc'" ∧
      (StubClass.build "" "F" "S" sharedIndex).methods.map (·.params) = ["$x = \\T::N"] ∧
      (sharedIndex.get? "S").map (accessorKey sharedIndex) =
        some (.error (.accessorUnresolved "S")) := by
  obtain ⟨-, -, -, hcomputed⟩ := sharedIndex_computed
  exact hcomputed

end FacadeStubs
