import FacadeStubs.Proofs.Export.ConstantExpressions
import FacadeStubs.Proofs.Facts.Declared
import FacadeStubs.Proofs.Run.Helper
import FacadeStubs.Proofs.Stub.ReturnTypes

/-!
# What a helper file is read as

A run writes a class for each facade, with a static method for each method that its service forwards. Where
all sources of the run are in the grammar, what is reported has ordinary names and the defaults that are
written are constant expressions of the sources (`FacadeSummary.IsOrdinary`), the helper file is read as these
classes, unless one of the methods cannot be read back (`Method.Legible`): a default in which two signs make
one token, or a return type that goes on behind the word `never`. Then the file is not in the grammar.

Results:
* `FacadeSummary.IsOrdinary.writable`: of accepted sources all that is forwarded can be written as a helper
  file has it.
* `helper_read_iff`: what the helper file of a run is read as.
-/
namespace FacadeStubs

open Php Lexical Analysis Export

/-- The names of a class are as the grammar has them. -/
structure ClassDecl.Writable (d : ClassDecl) : Prop where
  namespaceName : d.namespaceName.getD "" = "" ∨ IsPath (d.namespaceName.getD "")
  name : IsName (Utf8.bytesOf d.name)

/-- The names of a facade and of its service, and the names and types of the methods that are forwarded,
are as the grammar has them. -/
structure FacadeSummary.Writable (index : ClassIndex) (s : FacadeSummary) : Prop where
  facade : ∀ d ∈ index.get? s.cls, d.Writable
  service : ∀ d ∈ index.get? s.service, d.Writable
  methods : ∀ m ∈ (index.methodsOf s.service).filter Method.isForwardable, m.Writable index

/-- A name in a namespace is a path. -/
theorem isPath_qualifiedName {ns name : String} (hns : ns = "" ∨ IsPath ns)
    (hname : IsName (Utf8.bytesOf name)) : IsPath (qualifiedName (some ns) name) := by
  have hroot : Utf8.bytesOf "\\" = [92] := rfl
  rcases hns with rfl | ⟨s, names, hbytes, hnames⟩
  · refine ⟨Utf8.bytesOf name, [], ?_, by simpa using hname⟩
    simp [qualifiedName, Utf8.bytesOf_append, hroot, pathBytes]
  · have hempty := isEmpty_of_isPath ⟨s, names, hbytes, hnames⟩
    refine ⟨s, names ++ [Utf8.bytesOf name], ?_, ?_⟩
    · simp only [qualifiedName, hempty, Bool.false_eq_true, if_false]
      rw [← String.append_assoc, ← String.append_assoc, Utf8.bytesOf_append, Utf8.bytesOf_append,
        hbytes, hroot]
      simp [pathBytes]
    · rw [← List.cons_append]
      exact List.forall_mem_append.2 ⟨hnames, by simpa using hname⟩

/-- A name without a namespace is a path. -/
theorem isPath_of_isName {c : String} (h : IsName (Utf8.bytesOf c)) : IsPath c := by
  simpa [qualifiedName] using isPath_qualifiedName (.inl rfl) h

/-! ## Facades of accepted sources -/

/-- A constant that a source in the grammar has, by the syntax of constant expressions. -/
def Literal.IsSourced (index : ClassIndex) (sources : List SourceFile) (v : Literal) : Prop :=
  ∃ f ∈ sources, ∃ scope n, n.StandsIn f.content ∧ ConstantExpression index f.content scope n ∧
    constantOf f.content scope n = v

/-- The names of parameters are names, and the classes of types are paths. -/
structure Method.IsOrdinary (m : Method) : Prop where
  params : ∀ p ∈ m.params, IsName (Utf8.bytesOf p.name)
  classes : ∀ t ∈ m.declaredTypes, ∀ k ∈ t.classes, IsPath k

/-- The namespace of a declaration is the global one or a path. -/
def ClassDecl.IsPlaced (d : ClassDecl) : Prop :=
  d.namespaceName.getD "" = "" ∨ IsPath (d.namespaceName.getD "")

/-- A facade and its service stand in ordinary namespaces, and the methods that are forwarded have ordinary
names. Their written defaults are constant expressions of the sources, and so are the constants of classes
that these lead to. -/
structure FacadeSummary.IsOrdinary (index : ClassIndex) (sources : List SourceFile) (s : FacadeSummary) :
    Prop where
  facade : ∀ d ∈ index.get? s.cls, d.IsPlaced
  service : ∀ d ∈ index.get? s.service, d.IsPlaced
  methods : ∀ m ∈ (index.methodsOf s.service).filter Method.isForwardable, m.IsOrdinary
  constants : ∀ m ∈ (index.methodsOf s.service).filter Method.isForwardable,
    ∀ v ∈ writtenDefaults m.params, ∀ u, index.Leads v u → u.IsSourced index sources

section
variable {index : ClassIndex} {sources : List SourceFile} {m : Method} {t : TypeHint} {v : Literal}

/-- A type of paths is one that a declaration may have. -/
theorem isDeclarable_of_isPath (h : t.IsBuiltOf TypeHint.IsNamed) (hclasses : ∀ k ∈ t.classes, IsPath k) :
    t.IsDeclarable := by
  refine TypeHint.IsBuiltOf.mono (fun t ht => ?_) (h.namedBy hclasses)
  obtain ⟨hnamed, hpaths⟩ := ht
  cases t with
  | builtin name => exact hnamed
  | cls k => exact hpaths k (by simp [TypeHint.classes])
  | _ => exact hnamed.elim

/-- What is sourced, with all that it leads to, is written. -/
theorem nested_of_isSourced (h : ∀ u, index.Leads v u → u.IsSourced index sources) :
    Nested index maxDepth v := by
  refine (Spelled.nested (fun u hu => ?_) maxDepth).1
  obtain ⟨f, -, scope, n, hn, hconstant, rfl⟩ := h u hu
  exact hconstant.spelled hn.isOrderly

theorem Method.IsOrdinary.writable (h : m.IsOrdinary) (hdeclared : m.IsDeclared)
    (hconstants : ∀ v ∈ writtenDefaults m.params, ∀ u, index.Leads v u → u.IsSourced index sources) :
    m.Writable index where
  name := hdeclared.name
  params p hp := ⟨h.params p hp, hdeclared.params p hp, fun t ht =>
    have hmem : t ∈ m.declaredTypes := List.mem_append_left _ (List.mem_filterMap.2 ⟨p, hp, ht⟩)
    isDeclarable_of_isPath (hdeclared.types t hmem) (h.classes t hmem)⟩
  returnType t ht :=
    have hmem : t ∈ m.declaredTypes := List.mem_append_right _ (Option.mem_toList.2 ht)
    isDeclarable_of_isPath (hdeclared.types t hmem) (h.classes t hmem)
  defaults v hv := nested_of_isSourced (hconstants v hv)

/-- In an index of accepted sources all that an ordinary facade forwards can be written. -/
theorem FacadeSummary.IsOrdinary.writable [Recovery] {base : String} {s : FacadeSummary}
    (h : s.IsOrdinary index sources) (hindex : ({} : ClassIndex).addSources? base sources = some index)
    (haccepted : ∀ f ∈ sources, (parse? f.content).isSome = true) : s.Writable index := by
  have hdeclared : ∀ {c : String}, ∀ d ∈ index.get? c, d.IsDeclared := fun d hd =>
    isDeclared_of_mem hindex haccepted (ClassIndex.mem_decls_of_get? hd)
  refine ⟨fun d hd => ⟨h.facade d hd, (hdeclared d hd).name⟩,
    fun d hd => ⟨h.service d hd, (hdeclared d hd).name⟩, fun m hm => ?_⟩
  obtain ⟨_, d, hd, hmd, -⟩ := exists_declares (List.mem_of_mem_filter hm)
  exact (h.methods m hm).writable ((hdeclared d hd).methods m hmd) (h.constants m hm)

end

namespace Generation

/-- The front of a facade. -/
def Item.front (i : Item) : Front := ⟨i.stub.namespaceName, i.stub.shortName, i.summary.service⟩

/-- The fronts in the order in which they are written. -/
def orderedFronts (grouping : Grouping) (fs : List Front) : List Front :=
  match grouping with
  | .grouped => fs.mergeSort fun a b => a.namespaceName ≤ b.namespaceName
  | .interleaved => fs

theorem orderedFronts_perm (grouping : Grouping) (fs : List Front) :
    (orderedFronts grouping fs).Perm fs := by
  cases grouping with
  | grouped => exact List.mergeSort_perm _ _
  | interleaved => exact .refl _

theorem ordered_map_stub (grouping : Grouping) (index : ClassIndex) (fs : List Front) :
    ordered grouping (fs.map (Front.stub index)) =
      (orderedFronts grouping fs).map (Front.stub index) := by
  cases grouping with
  | grouped =>
    have hnames : ∀ a ∈ fs, ∀ b ∈ fs, decide (a.namespaceName ≤ b.namespaceName) =
        decide ((a.stub index).namespaceName ≤ (b.stub index).namespaceName) := fun _ _ _ _ => rfl
    exact (@List.map_mergeSort _ _ (fun a b : Front => a.namespaceName ≤ b.namespaceName)
      (fun a b : StubClass => a.namespaceName ≤ b.namespaceName) _ _ hnames).symm
  | interleaved => rfl

section
variable {c : Config} {r : Registry} {d : Disk} {files : List SourceFile} {index : ClassIndex}

/-- The front of a forwarded facade is that of its stub, and is writable if the facade is. -/
theorem front_of_forwards {name : String} {decl : ClassDecl} {i : Item} (hw : i.summary.Writable index)
    (hdecl : index.get? name = some decl) (hs : Forwards c r index decl i.summary)
    (hstub : i.stub =
      StubClass.build (decl.namespaceName.getD "") decl.name i.summary.service index) :
    i.front.stub index = i.stub ∧ i.front.Writable index := by
  refine ⟨by rw [hstub, Item.front, hstub]; rfl, ?_⟩
  have hfacade : index.get? i.summary.cls = some decl := by
    rw [hs.cls_eq]
    exact ClassIndex.get?_fqn_of_get? hdecl
  obtain ⟨hnamespace, hname⟩ := hw.facade decl hfacade
  obtain ⟨cls, service, hservice, hfqn⟩ := hs.service
  have hfound : index.get? i.summary.service = some service := by
    rw [hfqn]
    exact ClassIndex.get?_fqn_of_get? hservice
  obtain ⟨hnamespace', hname'⟩ := hw.service service hfound
  have hpath : IsPath i.summary.service := by
    rw [hfqn, ← service.qualifiedName_getD]
    exact isPath_qualifiedName hnamespace' hname'
  rw [Item.front, hstub]
  exact ⟨hnamespace, hname, hpath, hw.methods⟩

/-- A run that succeeds writes the fronts of the facades that it reports. -/
theorem exists_fronts [Recovery] {report : Report} (h : (run c r d).result = .ok report)
    (hg : gather c r d = .ok (files, index)) (hw : ∀ s ∈ report.facades, s.Writable index) :
    ∃ fronts : List Front,
      (fronts.map fun f => (qualifiedName (some f.namespaceName) f.shortName, f.service)).Perm
        (report.facades.map fun s => (s.cls, s.service)) ∧
      (∀ f ∈ fronts, f.Writable index) ∧ (run c r d).disk.read report.output =
        .ok (Utf8.bytesOf (helperText (fronts.map (Front.stub index)))) := by
  obtain ⟨files', index', items, hg', hall, rfl, hread⟩ := items_of_run_ok h
  rw [hg, Except.ok.injEq, Prod.mk.injEq] at hg'
  obtain ⟨rfl, rfl⟩ := hg'
  have hitems : ∀ i ∈ items, i.front.stub index = i.stub ∧ i.front.Writable index ∧
      qualifiedName (some i.front.namespaceName) i.front.shortName = i.summary.cls := by
    intro i hi
    obtain ⟨decl, hmem, hs, hstub⟩ := exists_mem_of_forall₂ hall i hi
    obtain ⟨f, -, hdecl⟩ := List.mem_filterMap.1 hmem
    obtain ⟨name, hget⟩ := get?_of_facadeOf? hdecl
    have hfacade : i.summary.Writable index := hw i.summary (List.mem_map_of_mem hi)
    obtain ⟨heq, hwritable⟩ := front_of_forwards hfacade hget hs hstub
    refine ⟨heq, hwritable, ?_⟩
    rw [hs.cls_eq, Item.front, hstub]
    exact decl.qualifiedName_getD
  have hperm := orderedFronts_perm c.grouping (items.map Item.front)
  have hstubs : ordered c.grouping (items.map (·.stub)) =
      (orderedFronts c.grouping (items.map Item.front)).map (Front.stub index) := by
    rw [← ordered_map_stub, List.map_map]
    exact congrArg _ (List.map_congr_left fun i hi => (hitems i hi).1.symm)
  have hnames : (items.map Item.front).map
      (fun f => (qualifiedName (some f.namespaceName) f.shortName, f.service)) =
        (items.map (·.summary)).map fun s => (s.cls, s.service) := by
    rw [List.map_map, List.map_map]
    exact List.map_congr_left fun i hi => Prod.ext (hitems i hi).2.2 rfl
  refine ⟨orderedFronts c.grouping (items.map Item.front), hnames ▸ hperm.map _, fun f hf => ?_, ?_⟩
  · obtain ⟨i, hi, rfl⟩ := List.mem_map.1 (hperm.mem_iff.1 hf)
    exact (hitems i hi).2.1
  · rw [hread, hstubs]

/-- What holds of all methods that are forwarded holds of the methods of all fronts. -/
theorem forall_fronts_iff {fronts : List Front} {facades : List FacadeSummary} {p : Method → Prop}
    (h : (fronts.map fun f => (qualifiedName (some f.namespaceName) f.shortName, f.service)).Perm
      (facades.map fun s => (s.cls, s.service))) :
    (∀ f ∈ fronts, ∀ m ∈ f.methods index, p m) ↔
      ∀ s ∈ facades, ∀ m ∈ (index.methodsOf s.service).filter Method.isForwardable, p m := by
  have hservices : ∀ service, (∃ f ∈ fronts, f.service = service) ↔ ∃ s ∈ facades, s.service = service := by
    intro service
    simpa using (h.map Prod.snd).mem_iff (a := service)
  constructor
  · intro hall s hs
    obtain ⟨f, hf, heq⟩ := (hservices s.service).2 ⟨s, hs, rfl⟩
    exact heq ▸ hall f hf
  · intro hall f hf
    obtain ⟨s, hs, heq⟩ := (hservices f.service).1 ⟨f, hf, rfl⟩
    exact fun m hm => hall s hs m (heq ▸ hm)

/-- A run on accepted sources writes the stubs of the facades that it reports. The helper file is read as
these classes, in the order in which they are written, each with the methods that its service forwards,
exactly if all these methods are legible. -/
theorem helper_read_iff [Recovery] {more : List (List SourceFile)} {report : Report}
    (h : (run c r d).result = .ok report) (hscans : Scans c r d files more)
    (hindex : indexOf? c r files more = some index)
    (haccepted : ∀ f ∈ files ++ more.flatten, (parse? f.content).isSome = true)
    (hordinary : ∀ s ∈ report.facades, s.IsOrdinary index (files ++ more.flatten)) :
    ∃ (fronts : List Front) (bytes : Bytes),
      (fronts.map fun f => (qualifiedName (some f.namespaceName) f.shortName, f.service)).Perm
        (report.facades.map fun s => (s.cls, s.service)) ∧
      bytes = Utf8.bytesOf (helperText (fronts.map (Front.stub index))) ∧
      (run c r d).disk.read report.output = .ok bytes ∧
      ∀ path, (∃ facts, fileFacts? path bytes = some facts ∧ facts.hasErrors = false ∧
          facts.classes.map ClassDecl.outline = fronts.map (Front.outline index)) ↔
        ∀ s ∈ report.facades, ∀ m ∈ (index.methodsOf s.service).filter Method.isForwardable,
          m.Legible index := by
  obtain ⟨fronts, hperm, hwritable, hread⟩ := exists_fronts h (gather_eq_ok hscans hindex) fun s hs =>
    (hordinary s hs).writable hindex haccepted
  exact ⟨fronts, _, hperm, rfl, hread, fun path =>
    (fileFacts?_helperText_iff hwritable path).trans (forall_fronts_iff hperm)⟩

end

/-! ### The helper file of the shop -/

theorem shop_methods {s : FacadeSummary} (hs : s ∈ shopFacades) :
    ∀ m ∈ (shopIndex.methodsOf s.service).filter Method.isForwardable, m = shopF ∨ m = shopG := by
  have hsvc : (shopIndex.methodsOf "Svc").filter Method.isForwardable = [shopF] := by rfl
  have hold : (shopIndex.methodsOf "Old").filter Method.isForwardable = [shopG, shopF] := by rfl
  simp only [shopFacades, List.mem_cons, List.not_mem_nil, or_false] at hs
  obtain rfl | rfl | rfl := hs <;> simp [hsvc, hold]

theorem shop_defaults : writtenDefaults shopF.params = [.null, .binary "*" (.expr "FOO") (.int 2)] ∧
    writtenDefaults shopG.params = [] := ⟨rfl, rfl⟩

theorem shop_accepted : ∀ f ∈ shopFiles ++ [shopTypes].flatten, (parse? f.content).isSome = true := by
  intro f hf
  obtain ⟨tree, -, htree⟩ := exists_mem_of_forall₂ shop_trees.flip f hf
  rw [htree]
  rfl

/-- The first default of the shop. -/
def shopNull : Node := .mk .nullLiteral 48 52 []

def shopConstant : Node := .mk .name 59 62 []

def shopNumber : Node := .mk .integerLiteral 65 66 []

/-- The second default of the shop, a constant times a number. -/
def shopProduct : Node := .mk .binaryOperation 59 66 [shopConstant, .mk .operator 63 64 [], shopNumber]

/-- The scope of the first service. -/
def shopScope : ClassScope := ⟨{}, "Svc", none⟩

/-- What is read of the source at the second default. -/
theorem shop_reads : shopConstant.bytes shopServices = Utf8.bytesOf "FOO" ∧
    (constantOf shopServices shopScope shopConstant).isExpr = true ∧
    IsBinary (lowerCase ((Node.mk .operator 63 64 []).text shopServices)) ∧
    (scalarText? (constantOf shopServices shopScope shopNumber)).isSome = true ∧
    (∀ n ∈ shopProduct.operands, reference? (constantOf shopServices shopScope n) = none ∧
      isArrayLiteral (constantOf shopServices shopScope n) = false) ∧
    (constantOf shopServices shopScope shopProduct).isExpr = false := by
  decide +kernel

theorem shop_constantExpression : ConstantExpression shopIndex shopServices shopScope shopProduct := by
  obtain ⟨hbytes, hexpr, hop, hnumber, harrays, hproduct⟩ := shop_reads
  have hflat : ∀ n ∈ shopProduct.operands, ¬ IsArrayIn shopIndex (constantOf shopServices shopScope n) :=
    fun n hn => not_isArrayIn (harrays n hn).1 (harrays n hn).2
  have hname : IsConstantName (Utf8.bytesOf "FOO") := by decide +kernel
  have hkept : shopConstant.IsKept shopServices shopScope :=
    .constant rfl rfl hbytes (.name hname) ⟨⟨'F', rfl, rfl⟩, 'O', rfl, rfl⟩ hexpr
  have hwritten : shopConstant.WrittenAs shopServices (.atom (Utf8.bytesOf "FOO")) :=
    .atom rfl ⟨rfl, rfl, hbytes⟩
  have hformed : (Written.atom (Utf8.bytesOf "FOO")).Formed := hname.1.1.1
  exact .binary hop (.kept hwritten hformed ⟨_, rfl⟩ (List.forall_mem_singleton.2 hkept)) (.scalar hnumber)
    (hflat _ List.mem_cons_self) (hflat _ (List.mem_cons_of_mem _ List.mem_cons_self)) hproduct

set_option maxRecDepth 4000 in
/-- The defaults of the shop are the constants of expressions in its services. -/
theorem shop_sourced {v : Literal} (hv : v ∈ writtenDefaults shopF.params) :
    v.IsSourced shopIndex (shopFiles ++ [shopTypes].flatten) := by
  have htrees := shop_trees
  simp only [shopFiles, shopTypes, List.cons_append, List.nil_append, List.forall₂_cons] at htrees
  obtain ⟨-, -, -, -, hservices, -⟩ := htrees
  have hfile : ⟨"./lib/Svc.php", ["Svc.php"], shopServices⟩ ∈ shopFiles ++ [shopTypes].flatten := by
    simp [shopFiles, shopTypes]
  rw [shop_defaults.1] at hv
  rcases List.mem_pair.1 hv with rfl | rfl
  · exact ⟨_, hfile, shopScope, shopNull, ⟨_, hservices, by decide +kernel⟩, .scalar rfl, rfl⟩
  · exact ⟨_, hfile, shopScope, shopProduct, ⟨_, hservices, by decide +kernel⟩,
      shop_constantExpression, by rfl⟩

/-- An expression without references leads to nothing else. -/
theorem eq_of_leads {index : ClassIndex} {v u : Literal} (h : index.Leads v u) (hv : v.references = []) :
    u = v := by
  cases h with
  | refl => rfl
  | step hr _ _ =>
    rw [hv] at hr
    cases hr

theorem shop_ordinaryMethod {m : Method} (hm : m = shopF ∨ m = shopG) : m.IsOrdinary := by
  obtain rfl | rfl := hm
  · exact ⟨by decide +kernel, by simp [shopF, Method.declaredTypes, TypeHint.classes]⟩
  · exact ⟨by decide +kernel, by simp [shopG, Method.declaredTypes, TypeHint.classes]⟩

theorem shop_placed : ∀ d ∈ shopIndex.decls, d.IsPlaced := by
  have hnames : shopIndex.decls.map (fun d => d.namespaceName.getD "") = ["A", "B", "", "", ""] := by rfl
  have hall : ∀ x ∈ shopIndex.decls.map (fun d => d.namespaceName.getD ""),
      x = "" ∨ IsName (Utf8.bytesOf x) := by
    rw [hnames]
    decide +kernel
  exact fun d hd => (hall _ (List.mem_map_of_mem hd)).imp_right isPath_of_isName

theorem shop_ordinary {s : FacadeSummary} (hs : s ∈ shopFacades) :
    s.IsOrdinary shopIndex (shopFiles ++ [shopTypes].flatten) where
  facade d hd := shop_placed d (ClassIndex.mem_decls_of_get? hd)
  service d hd := shop_placed d (ClassIndex.mem_decls_of_get? hd)
  methods m hm := shop_ordinaryMethod (shop_methods hs m hm)
  constants m hm v hv u hu := by
    obtain rfl | rfl := shop_methods hs m hm
    · have hnone : v.references = [] := by
        rw [shop_defaults.1] at hv
        rcases List.mem_pair.1 hv with rfl | rfl <;> rfl
      rw [eq_of_leads hu hnone]
      exact shop_sourced hv
    · rw [shop_defaults.2] at hv
      cases hv

theorem shop_legible {m : Method} (hm : m = shopF ∨ m = shopG) : m.Legible shopIndex := by
  have hname : IsConstantName (Utf8.bytesOf "FOO") := by decide +kernel
  have hproper : (Written.atom (Utf8.bytesOf "FOO")).Proper := isAtom_constantName hname
  obtain rfl | rfl := hm
  · refine ⟨?_, by simp [shopF, TypeHint.goesOnNever]⟩
    rw [shop_defaults.1]
    simp only [List.forall_mem_cons, List.not_mem_nil, false_imp_iff, implies_true, and_true]
    exact ⟨.flat (.scalar rfl) trivial, .flat (.binary (by decide) (.source hproper rfl) (.scalar rfl))
      ⟨trivial, trivial⟩⟩
  · refine ⟨?_, by simp [shopG]⟩
    rw [shop_defaults.2]
    exact List.forall_mem_nil _

/-- The helper file of the shop is read as its three classes, with all methods that they forward. -/
theorem helper_read_iff_shop : ∃ (report : Report) (fronts : List Front) (bytes : Bytes) (facts : FileFacts),
    (@run .nothing shopConfig {} shopDisk).result = .ok report ∧
    (fronts.map fun f => (qualifiedName (some f.namespaceName) f.shortName, f.service)).Perm
      [("A\\Cart", "Svc"), ("B\\Desk", "Old"), ("A\\Cart", "Svc")] ∧
    (@run .nothing shopConfig {} shopDisk).disk.read report.output = .ok bytes ∧
    @fileFacts? .nothing "lib/helper.php" bytes = some facts ∧ facts.hasErrors = false ∧
    facts.classes.map ClassDecl.outline = fronts.map (Front.outline shopIndex) := by
  let recovery : Recovery := .nothing
  obtain ⟨report, hreport, -, -, -, hfacades⟩ := shop_report
  obtain ⟨fronts, bytes, hperm, -, hread, hiff⟩ := helper_read_iff hreport (shop_scans (by decide) rfl rfl rfl)
    shop_index shop_accepted fun s hs => shop_ordinary (hfacades ▸ hs)
  obtain ⟨facts, hfacts, hclean, houtlines⟩ := (hiff "lib/helper.php").2 fun s hs m hm =>
    shop_legible (shop_methods (hfacades ▸ hs) m hm)
  rw [hfacades] at hperm
  exact ⟨report, fronts, bytes, facts, hreport, hperm, hread, hfacts, hclean, houtlines⟩

end Generation

end FacadeStubs
