import FacadeStubs.Proofs.Export.Defaults
import FacadeStubs.Proofs.Reader.Files
import FacadeStubs.Stub.Writer

/-!
# The layout of a helper file

The text of a stub is a text of the forms that the reader of helper files knows: parameters, methods,
classes and namespaces. `layout` names the form of each; the names and types that stand in it are
taken as the grammar gives them (`Writable`).

Results:
* `bytesOf_methodText`, `bytesOf_classText`, `bytesOf_helperText`: what is written is the layout.
* `sound_layout`: the layout of a method is well written, its defaults and return type aside.
* `readable_layout_iff`: these can be read exactly if every default is read as an expression and the
  return type does not go on behind the word `never`.
* `fileFacts?_helperText_iff`: what a helper file is read as.
-/
namespace FacadeStubs

open Php Lexical Analysis

/-! ## Return types -/

namespace TypeHint

/-- The type of what never returns. -/
def isNever : TypeHint → Bool
  | builtin name => name == "never"
  | _ => false

/-- Types of several members of which the first one is the type of what never returns. -/
def goesOnNever : TypeHint → Bool
  | union (first :: _ :: _) => first.isNever
  | intersection (first :: _ :: _) => first.isNever
  | _ => false

variable {selfClass : Option String} {service : String} {h m : TypeHint}

theorem exactWordAt_sign {a : UInt8} (ha : isLabelByte a = false) {u : Bytes} :
    exactWordAt (a :: u) ≠ "never" := by
  simp [exactWordAt, nameLength_boundary (boundary_cons ha)]

theorem eq_of_isNever (hh : h.isNever = true) : h = builtin "never" := by
  cases h with
  | builtin name => simpa [isNever] using hh
  | _ => cases hh

/-- A keyword or a class is written with the word `never` only if it is that keyword. -/
theorem render_plain (hh : h.IsNamed) :
    h.isNever = true ∧ typeBytes selfClass h = Utf8.bytesOf "never" ∨
    h.isNever = false ∧ exactWordAt (typeBytes selfClass h) ≠ "never" := by
  have hpath : ∀ fqn : String, exactWordAt (Utf8.bytesOf ("\\" ++ fqn)) ≠ "never" := by
    intro fqn
    rw [Utf8.bytesOf_append]
    exact exactWordAt_sign rfl
  cases h with
  | builtin name =>
    have hall : ∀ name ∈ spellings, (name = "never") ∨
        (name == "never") = false ∧ exactWordAt (Utf8.bytesOf name) ≠ "never" := by decide +kernel
    rcases hall name hh with rfl | ⟨hname, hword⟩
    · exact .inl ⟨rfl, by cases selfClass <;> simp [typeBytes, render, renderBuiltin]⟩
    · right
      refine ⟨hname, ?_⟩
      cases selfClass with
      | none =>
        rw [typeBytes, render]
        exact hword
      | some service =>
        rw [typeBytes, render, renderBuiltin]
        split
        · exact hpath service
        · exact hword
  | cls fqn =>
    rw [typeBytes, render]
    exact .inr ⟨rfl, hpath fqn⟩
  | _ => exact hh.elim

theorem render_simple (hh : h.IsSimpleOf IsNamed) :
    h.isNever = true ∧ typeBytes selfClass h = Utf8.bytesOf "never" ∨
    h.isNever = false ∧ exactWordAt (typeBytes selfClass h) ≠ "never" := by
  cases h with
  | nullable named =>
    rw [typeBytes_nullable]
    exact .inr ⟨rfl, exactWordAt_sign rfl⟩
  | builtin name => exact render_plain hh
  | cls fqn => exact render_plain hh
  | _ => exact hh.elim

theorem render_member (hh : m.IsSimpleOf IsNamed ∨ m.IsMeetOf IsNamed) :
    m.isNever = true ∧ barredBytes selfClass m = Utf8.bytesOf "never" ∨
    m.isNever = false ∧ exactWordAt (barredBytes selfClass m) ≠ "never" := by
  rcases hh with hh | hh
  · rw [barredBytes, hh.notIntersection]
    exact render_simple hh
  · cases m with
    | intersection members =>
      rw [barredBytes, isIntersection, if_pos rfl]
      exact .inr ⟨rfl, exactWordAt_sign rfl⟩
    | _ => exact hh.elim

/-- A type in pieces is not the word `never` alone, and goes on behind it if its first piece is it. -/
theorem returnWord_join {a : UInt8} (ha : a = 124 ∨ a = 38) {t : Bytes} {ts : List Bytes}
    (hne : ts ≠ []) {never : Bool}
    (ht : never = true ∧ t = Utf8.bytesOf "never" ∨ never = false ∧ exactWordAt t ≠ "never") :
    never = false ∧ exactWordAt (joinBytes a (t :: ts)) ≠ "never" ∨
    never = true ∧ IsBrokenReturn (joinBytes a (t :: ts)) := by
  obtain ⟨s, ts, rfl⟩ := List.exists_cons_of_ne_nil hne
  have hbound : ∀ u, Boundary (a :: u) := fun u =>
    boundary_cons (by rcases ha with rfl | rfl <;> rfl)
  rcases ht with ⟨rfl, rfl⟩ | ⟨rfl, hword⟩
  · exact .inr ⟨rfl, a, _, rfl, ha⟩
  · left
    refine ⟨rfl, ?_⟩
    rw [joinBytes, List.flatMap_cons, List.cons_append, exactWordAt_front (hbound _)]
    exact hword

/-- A type is the word `never`, or does not begin with it, unless it goes on behind it. -/
theorem returnWord_render (hh : h.IsBuiltOf IsNamed) :
    h.goesOnNever = false ∧ (typeBytes selfClass h = Utf8.bytesOf "never" ∧
        h.collapsed = builtin "never" ∨ exactWordAt (typeBytes selfClass h) ≠ "never") ∨
    h.goesOnNever = true ∧ IsBrokenReturn (typeBytes selfClass h) := by
  have hsimple : ∀ {t : TypeHint}, t.IsSimpleOf IsNamed →
      typeBytes selfClass t = Utf8.bytesOf "never" ∧ t = builtin "never" ∨
        exactWordAt (typeBytes selfClass t) ≠ "never" := by
    intro t ht
    exact (render_simple ht).imp (fun hnever => ⟨hnever.2, eq_of_isNever hnever.1⟩) And.right
  cases h with
  | union members =>
    obtain ⟨m, ms, rfl⟩ := List.exists_cons_of_ne_nil hh.1
    have hm := @render_member selfClass _ (hh.2 m (by simp))
    rw [typeBytes_union, List.map_cons]
    cases ms with
    | nil =>
      left
      refine ⟨rfl, ?_⟩
      rcases hm with ⟨hnever, hbytes⟩ | ⟨-, hword⟩
      · left
        obtain rfl := eq_of_isNever hnever
        exact ⟨by simp [joinBytes, hbytes], rfl⟩
      · right
        simpa [joinBytes] using hword
    | cons m' ms =>
      exact (returnWord_join (.inl rfl) (by simp) hm).imp (fun hword => ⟨hword.1, .inr hword.2⟩) id
  | intersection members =>
    obtain ⟨hne, hall⟩ := hh.resolve_left fun h => h.elim
    obtain ⟨m, ms, rfl⟩ := List.exists_cons_of_ne_nil hne
    have hm := @render_simple selfClass _ (hall m (by simp))
    rw [typeBytes_intersection, List.map_cons]
    cases ms with
    | nil =>
      left
      refine ⟨rfl, ?_⟩
      simpa [joinBytes, collapsed] using hsimple (hall m (by simp))
    | cons m' ms =>
      exact (returnWord_join (.inr rfl) (by simp) hm).imp (fun hword => ⟨hword.1, .inr hword.2⟩) id
  | builtin name => exact .inl ⟨rfl, hsimple (hh.resolve_right fun h => h.elim)⟩
  | cls fqn => exact .inl ⟨rfl, hsimple (hh.resolve_right fun h => h.elim)⟩
  | nullable named => exact .inl ⟨rfl, hsimple (hh.resolve_right fun h => h.elim)⟩

/-- A type can be read as a return type unless it goes on behind the word `never`. -/
theorem returnText_render (hs : IsPath service) (hh : h.IsDeclarable) :
    h.goesOnNever = false ∧ IsReturnText (Utf8.bytesOf (h.render (some service))) ∨
    h.goesOnNever = true ∧ IsBrokenReturn (Utf8.bytesOf (h.render (some service))) := by
  have htype := isTypeText_render hs hh
  have hnamed : h.IsBuiltOf IsNamed := IsBuiltOf.mono (fun _ ht => ht.isNamed) hh
  refine (@returnWord_render (some service) _ hnamed).imp (fun hword => ?_) id
  exact ⟨hword.1, hword.2.imp And.left fun hother => ⟨htype, hother⟩⟩

end TypeHint

/-! ## Parameters -/

/-- The parameter as it is written in a stub. -/
def Param.layout (service : String) (index : ClassIndex) (optional : Bool) (p : Param) :
    ParamText where
  type := p.typeHint.map fun t => Utf8.bytesOf (t.render (some service))
  byRef := p.byRef
  variadic := p.variadic
  name := p.name
  default := if optional && !p.variadic then
    p.default.map fun v => Utf8.bytesOf (Export.text index v) else none

/-- The parameters of a method as they are written in a stub. -/
def paramLayouts (service : String) (index : ClassIndex) : List Param → List ParamText
  | [] => []
  | p :: later =>
    p.layout service index (Method.isHeadOptional (p :: later)) :: paramLayouts service index later

section
variable {service : String} {index : ClassIndex}

theorem bytesOf_empty : Utf8.bytesOf "" = [] := rfl

theorem bytesOf_spread (p : Param) :
    Utf8.bytesOf (StubMethod.spread p) = if p.variadic then [46, 46, 46] else [] := by
  unfold StubMethod.spread
  split <;> rfl

theorem bytesOf_defaultPart (service : String) (optional : Bool) (p : Param) :
    Utf8.bytesOf (StubMethod.defaultPart index optional p) =
      defaultBytes (p.layout service index optional).default := by
  have hequals : Utf8.bytesOf " = " = [32, 61, 32] := rfl
  unfold StubMethod.defaultPart Param.layout
  cases p.default with
  | none => simp [bytesOf_empty, defaultBytes]
  | some v =>
    cases optional && !p.variadic with
    | false => exact bytesOf_empty
    | true => simp [Utf8.bytesOf_append, hequals, defaultBytes]

theorem bytesOf_paramText (optional : Bool) (p : Param) :
    Utf8.bytesOf (StubMethod.paramText service index optional p) =
      (p.layout service index optional).bytes := by
  have hblank : Utf8.bytesOf " " = [32] := rfl
  have hdollar : Utf8.bytesOf "$" = [36] := rfl
  have href : Utf8.bytesOf (if p.byRef then "&" else "") = if p.byRef then [38] else [] := by
    split <;> rfl
  have hbehind : (p.layout service index optional).behindType =
      (if p.byRef then [38] else []) ++ ((if p.variadic then [46, 46, 46] else []) ++
        36 :: (Utf8.bytesOf p.name ++ defaultBytes (p.layout service index optional).default)) := rfl
  unfold StubMethod.paramText StubMethod.typePart ParamText.bytes
  rw [hbehind]
  simp only [Utf8.bytesOf_append, bytesOf_defaultPart service, bytesOf_spread, href, hdollar]
  cases h : p.typeHint with
  | none => simp [Param.layout, h, bytesOf_empty]
  | some t => simp [Param.layout, h, Utf8.bytesOf_append, hblank]

theorem bytesOf_paramTexts (ps : List Param) :
    Utf8.bytesOf (joined ", " (StubMethod.paramTexts service index ps)) =
      parameterBytes (paramLayouts service index ps) := by
  have hcomma : Utf8.bytesOf ", " = [44, 32] := rfl
  have htexts : ∀ qs : List Param,
      (StubMethod.paramTexts service index qs).flatMap (fun t => 44 :: 32 :: Utf8.bytesOf t) =
        (parameterRow [] (paramLayouts service index qs)).flatMap fun i => 44 :: 32 :: i.1 := by
    intro qs
    induction qs with
    | nil => rfl
    | cons q qs ih =>
      rw [StubMethod.paramTexts, paramLayouts, List.flatMap_cons, ih, bytesOf_paramText]
      rfl
  cases ps with
  | nil => rfl
  | cons p ps =>
    rw [StubMethod.paramTexts, Utf8.bytesOf_joined_cons, bytesOf_paramText, hcomma]
    exact congrArg _ (htexts ps)

theorem bytesOf_args (ps : List Param) :
    Utf8.bytesOf (joined ", " (ps.map StubMethod.argText)) =
      listBytes (argumentRow ((paramLayouts service index ps).map fun p =>
        (p.variadic, Utf8.bytesOf p.name))) := by
  have hcomma : Utf8.bytesOf ", " = [44, 32] := rfl
  have harg : ∀ p : Param, Utf8.bytesOf (StubMethod.argText p) =
      argumentBytes p.variadic (Utf8.bytesOf p.name) := by
    intro p
    have hdollar : Utf8.bytesOf "$" = [36] := rfl
    simp only [StubMethod.argText, Utf8.bytesOf_append, bytesOf_spread, hdollar, argumentBytes]
    split <;> rfl
  have hrow : ∀ qs : List Param, argumentRow ((paramLayouts service index qs).map fun p =>
      (p.variadic, Utf8.bytesOf p.name)) =
        qs.map fun q => (argumentBytes q.variadic (Utf8.bytesOf q.name), Node.IsBare) := by
    intro qs
    induction qs with
    | nil => rfl
    | cons q qs ih =>
      simp only [argumentRow, paramLayouts, List.map_cons] at ih ⊢
      rw [ih]
      rfl
  rw [hrow]
  cases ps with
  | nil => rfl
  | cons p ps =>
    rw [List.map_cons, Utf8.bytesOf_joined_cons, harg, hcomma, List.map_cons, listBytes]
    simp only [List.flatMap_map, harg]
    rfl

end

/-! ## Methods -/

/-- The method as it is written in a stub. -/
def Method.layout (service : String) (index : ClassIndex) (m : Method) : MethodText where
  doc := Utf8.bytesOf ("*\n" ++
    joined "" (m.params.map fun p => "         * " ++ StubMethod.docText service p ++ "\n") ++
    "         * @return " ++ (StubMethod.ofMethod m service index).returnType ++ "\n         ")
  name := m.name
  params := paramLayouts service index m.params
  returnType := Utf8.bytesOf (StubMethod.ofMethod m service index).returnType
  note := Utf8.bytesOf ("* @var \\" ++ service ++ " $instance ")
  returns := (StubMethod.ofMethod m service index).returnsValue

section
variable {service : String} {index : ClassIndex}

theorem bytesOf_methodText (m : Method) :
    Utf8.bytesOf (StubWriter.methodText service (StubMethod.ofMethod m service index)) =
      (m.layout service index).bytes ++ [10] := by
  have hparams : Utf8.bytesOf (StubMethod.ofMethod m service index).params =
      parameterBytes (paramLayouts service index m.params) := bytesOf_paramTexts m.params
  have hargs : Utf8.bytesOf (StubMethod.ofMethod m service index).args =
      listBytes (argumentRow ((paramLayouts service index m.params).map fun p =>
        (p.variadic, Utf8.bytesOf p.name))) := bytesOf_args m.params
  have hname : (StubMethod.ofMethod m service index).name = m.name := rfl
  have hdocs : (StubMethod.ofMethod m service index).docParams =
      m.params.map (StubMethod.docText service) := rfl
  unfold StubWriter.methodText Method.layout MethodText.bytes MethodText.partsBytes
    MethodText.nameBytes MethodText.bodyBytes MethodText.statementBytes commentGap lineGap callBytes
    memberBytes
  simp only [Utf8.bytesOf_append, hparams, hargs, hname, hdocs, List.map_map, List.append_assoc,
    List.cons_append]
  cases (StubMethod.ofMethod m service index).returnsValue with
  | true => rfl
  | false => rfl

end

/-! ## Classes and namespaces -/

/-- A class of a helper file before it is written: its name, and the class that it forwards to. -/
structure Front where
  namespaceName : String
  shortName : String
  service : String

namespace Front

variable {index : ClassIndex}

/-- The methods that a class forwards. -/
def methods (index : ClassIndex) (f : Front) : List Method :=
  (index.methodsOf f.service).filter Method.isForwardable

def stub (index : ClassIndex) (f : Front) : StubClass :=
  StubClass.build f.namespaceName f.shortName f.service index

/-- The class as it is written. -/
def layout (index : ClassIndex) (f : Front) : ClassText where
  name := f.shortName
  methods := (f.methods index).map (Method.layout f.service index)

/-- What the class is to be read as. -/
def outline (index : ClassIndex) (f : Front) : ClassOutline where
  namespaceName := f.namespaceName
  name := f.shortName
  methods := (f.methods index).map fun m => ⟨m.name, .everyone, true, m.params.map (·.name)⟩

theorem bytesOf_classText (f : Front) :
    Utf8.bytesOf (StubWriter.classText (f.stub index)) = (f.layout index).bytes ++ [10] := by
  have hmethods : ∀ ms : List Method,
      Utf8.bytesOf (joined "" (ms.map fun m =>
        StubWriter.methodText f.service (StubMethod.ofMethod m f.service index))) =
      (ms.map (Method.layout f.service index)).flatMap fun m => m.bytes ++ [10] := by
    intro ms
    cases ms with
    | nil => rfl
    | cons m ms =>
      rw [List.map_cons, Utf8.bytesOf_joined_cons, bytesOf_methodText, bytesOf_empty]
      simp only [List.nil_append, List.flatMap_map, bytesOf_methodText, List.map_cons,
        List.flatMap_cons]
  have hjoined := hmethods (f.methods index)
  unfold StubWriter.classText layout ClassText.bytes ClassText.nameBytes ClassText.memberBytes lineGap
  have hstub : (f.stub index).methods.map (StubWriter.methodText (f.stub index).serviceClass) =
      (f.methods index).map fun m =>
        StubWriter.methodText f.service (StubMethod.ofMethod m f.service index) := by
    simp [stub, StubClass.build, methods]
  simp only [Utf8.bytesOf_append, hstub, hjoined, List.append_assoc, List.cons_append]
  rfl

end Front

/-- Puts a class in front of namespaces: into the first one if that is its own, or else into a new
one. -/
def withClass (name : String) (c : ClassText) : List NamespaceText → List NamespaceText
  | [] => [⟨name, [c]⟩]
  | m :: ms => if m.name = name then ⟨name, c :: m.classes⟩ :: ms else ⟨name, [c]⟩ :: m :: ms

/-- The namespaces of a helper file as they are written. -/
def namespaces (index : ClassIndex) : List Front → List NamespaceText
  | [] => []
  | f :: rest => withClass f.namespaceName (f.layout index) (namespaces index rest)

/-- Namespaces with empty lines behind them. -/
def namespacesBytes (ms : List NamespaceText) : Bytes := ms.flatMap fun m => m.bytes ++ [10, 10]

/-- The end of a namespace. -/
def endBytes : Bytes := [125, 10, 10]

/-- What follows in a namespace that is open. -/
def openBytes (name : String) : List NamespaceText → Bytes
  | [] => endBytes
  | m :: ms =>
    if m.name = name then (m.classes.flatMap fun c => c.bytes ++ [10]) ++ endBytes ++ namespacesBytes ms
    else endBytes ++ namespacesBytes (m :: ms)

section
variable {index : ClassIndex} {name : String} {c : ClassText}

theorem openBytes_withClass (ms : List NamespaceText) :
    openBytes name (withClass name c ms) = c.bytes ++ [10] ++ openBytes name ms := by
  cases ms with
  | nil => simp [withClass, openBytes, namespacesBytes]
  | cons m ms =>
    by_cases h : m.name = name
    · simp [withClass, openBytes, h]
    · simp [withClass, openBytes, h]

theorem openBytes_other {other : String} (h : other ≠ name) (ms : List NamespaceText) :
    openBytes name (withClass other c ms) = endBytes ++ namespacesBytes (withClass other c ms) := by
  cases ms with
  | nil => simp [withClass, openBytes, h]
  | cons m ms => by_cases hm : m.name = other <;> simp [withClass, openBytes, h, hm]

theorem namespacesBytes_withClass (ms : List NamespaceText) :
    namespacesBytes (withClass name c ms) = Utf8.bytesOf (StubWriter.blockHeader name) ++
      (c.bytes ++ [10] ++ openBytes name ms) := by
  have hheader : Utf8.bytesOf (StubWriter.blockHeader name) = Utf8.bytesOf "namespace" ++
      32 :: ((if name.isEmpty then [] else Utf8.bytesOf name ++ [32]) ++ [123, 10, 10]) := by
    unfold StubWriter.blockHeader
    split
    · rfl
    · simp only [Utf8.bytesOf_append, List.append_assoc]
      rfl
  cases ms with
  | nil =>
    simp [withClass, openBytes, namespacesBytes, hheader, NamespaceText.bytes,
      NamespaceText.nameBytes, NamespaceText.bodyBytes, endBytes]
  | cons m ms =>
    by_cases hm : m.name = name <;>
      simp [withClass, openBytes, namespacesBytes, hheader, NamespaceText.bytes,
        NamespaceText.nameBytes, NamespaceText.bodyBytes, endBytes, hm]

/-- The writer goes on in the namespace that is open. -/
theorem bytesOf_writeAll_open (fs : List Front) (name : String) :
    Utf8.bytesOf (StubWriter.writeAll ⟨some name⟩ (fs.map (Front.stub index))) =
      openBytes name (namespaces index fs) := by
  have hclose : Utf8.bytesOf StubWriter.blockEnd = endBytes := rfl
  induction fs generalizing name with
  | nil => simp [StubWriter.writeAll, StubWriter.closing, namespaces, openBytes, hclose]
  | cons f fs ih =>
    rw [List.map_cons, StubWriter.writeAll, Utf8.bytesOf_append, namespaces]
    have hname : (f.stub index).namespaceName = f.namespaceName := rfl
    by_cases h : f.namespaceName = name
    · subst h
      rw [openBytes_withClass]
      simp [StubWriter.write, hname, ih, Front.bytesOf_classText]
    · have hne : ((some name : Option String) == some f.namespaceName) = false := by
        simpa using Ne.symm h
      rw [openBytes_other h, namespacesBytes_withClass]
      simp [StubWriter.write, hname, hne, ih, Front.bytesOf_classText, Utf8.bytesOf_append,
        StubWriter.closing, hclose]

theorem bytesOf_helperText (fs : List Front) :
    Utf8.bytesOf (helperText (fs.map (Front.stub index))) = fileBytes (namespaces index fs) := by
  have hopening : Utf8.bytesOf StubWriter.opening = Utf8.bytesOf "<?php" ++ [10, 10] := rfl
  unfold helperText fileBytes
  rw [Utf8.bytesOf_append, hopening, List.append_assoc]
  congr 2
  cases fs with
  | nil => rfl
  | cons f fs =>
    have hname : (f.stub index).namespaceName = f.namespaceName := rfl
    have hnew : ((none : Option String) == some f.namespaceName) = false := rfl
    have hclass := @namespacesBytes_withClass f.namespaceName (f.layout index) (namespaces index fs)
    rw [List.map_cons, StubWriter.writeAll, Utf8.bytesOf_append, namespaces]
    refine Eq.trans ?_ hclass.symm
    simp [StubWriter.write, hname, hnew, bytesOf_writeAll_open, Front.bytesOf_classText,
      Utf8.bytesOf_append, StubWriter.closing]

theorem flatMap_classes_withClass (ms : List NamespaceText) :
    (withClass name c ms).flatMap (·.classes) = c :: ms.flatMap (·.classes) := by
  cases ms with
  | nil => simp [withClass]
  | cons m ms => by_cases h : m.name = name <;> simp [withClass, h]

theorem flatMap_outlines_withClass (ms : List NamespaceText) :
    (withClass name c ms).flatMap NamespaceText.outlines =
      ⟨name, c.name, c.methods.map MethodText.outline⟩ :: ms.flatMap NamespaceText.outlines := by
  cases ms with
  | nil => simp [withClass, NamespaceText.outlines]
  | cons m ms => by_cases h : m.name = name <;> simp [withClass, h, NamespaceText.outlines]

theorem mem_withClass {ms : List NamespaceText} {m : NamespaceText} (h : m ∈ withClass name c ms) :
    m.name = name ∨ m ∈ ms := by
  cases ms with
  | nil =>
    obtain rfl : m = ⟨name, [c]⟩ := by simpa [withClass] using h
    exact .inl rfl
  | cons x ms =>
    simp only [withClass] at h
    split at h
    · rcases List.mem_cons.1 h with rfl | h
      · exact .inl rfl
      · exact .inr (List.mem_cons_of_mem _ h)
    · rcases List.mem_cons.1 h with rfl | h
      · exact .inl rfl
      · exact .inr h

/-- The classes of a helper file stand in its namespaces in order. -/
theorem flatMap_classes_namespaces (fs : List Front) :
    (namespaces index fs).flatMap (·.classes) = fs.map (Front.layout index) := by
  induction fs with
  | nil => rfl
  | cons f fs ih => rw [namespaces, flatMap_classes_withClass, ih, List.map_cons]

theorem flatMap_outlines_namespaces (fs : List Front) :
    (namespaces index fs).flatMap NamespaceText.outlines = fs.map (Front.outline index) := by
  have hparams : ∀ (service : String) (ps : List Param),
      (paramLayouts service index ps).map (·.name) = ps.map (·.name) := by
    intro service ps
    induction ps with
    | nil => rfl
    | cons p ps ih => rw [paramLayouts, List.map_cons, List.map_cons, ih]; rfl
  have houtline : ∀ f : Front, (f.layout index).methods.map MethodText.outline =
      (f.methods index).map fun m => ⟨m.name, .everyone, true, m.params.map (·.name)⟩ := by
    intro f
    simp only [Front.layout, List.map_map]
    refine List.map_congr_left fun m _ => ?_
    simp [MethodText.outline, Method.layout, hparams]
  induction fs with
  | nil => rfl
  | cons f fs ih =>
    rw [namespaces, flatMap_outlines_withClass, ih, houtline]
    rfl

theorem name_of_mem_namespaces {fs : List Front} {m : NamespaceText} (h : m ∈ namespaces index fs) :
    ∃ f ∈ fs, m.name = f.namespaceName := by
  induction fs with
  | nil => cases h
  | cons f fs ih =>
    rcases mem_withClass h with hname | h
    · exact ⟨f, List.mem_cons_self, hname⟩
    · obtain ⟨g, hg, hname⟩ := ih h
      exact ⟨g, List.mem_cons_of_mem _ hg, hname⟩

/-- What holds of all classes of a helper file holds of all fronts. -/
theorem forall_namespaces_iff {fs : List Front} {p : ClassText → Prop} :
    (∀ m ∈ namespaces index fs, ∀ c ∈ m.classes, p c) ↔ ∀ f ∈ fs, p (f.layout index) := by
  have hclasses := @flatMap_classes_namespaces index fs
  constructor
  · intro h f hf
    have hmem : f.layout index ∈ (namespaces index fs).flatMap (·.classes) :=
      hclasses ▸ List.mem_map_of_mem hf
    obtain ⟨m, hm, hc⟩ := List.mem_flatMap.1 hmem
    exact h m hm _ hc
  · intro h m hm c hc
    have hmem : c ∈ fs.map (Front.layout index) := hclasses ▸ List.mem_flatMap.2 ⟨m, hm, hc⟩
    obtain ⟨f, hf, rfl⟩ := List.mem_map.1 hmem
    exact h f hf

end

/-! ## What can be read -/

/-- A parameter whose name and type are as the grammar has them. -/
structure Param.Writable (p : Param) : Prop where
  name : IsName (Utf8.bytesOf p.name)
  trimmed : variableName ("$" ++ p.name) = p.name
  type : ∀ t ∈ p.typeHint, t.IsDeclarable

/-- A method whose names and types are as the grammar has them, with defaults of scalars, references and
operators, source text, and arrays of these. -/
structure Method.Writable (index : ClassIndex) (m : Method) : Prop where
  name : IsName (Utf8.bytesOf m.name)
  params : ∀ p ∈ m.params, p.Writable
  returnType : ∀ t ∈ m.returnType, t.IsDeclarable
  defaults : ∀ v ∈ writtenDefaults m.params, Export.Nested index Export.maxDepth v

/-- A class whose names are as the grammar has them, and the same of all that it forwards. -/
structure Front.Writable (index : ClassIndex) (f : Front) : Prop where
  namespaceName : f.namespaceName = "" ∨ IsPath f.namespaceName
  shortName : IsName (Utf8.bytesOf f.shortName)
  service : IsPath f.service
  methods : ∀ m ∈ f.methods index, m.Writable index

/-- No two signs of a default make one token, and the return type does not go on behind the word
`never`. -/
def Method.Legible (index : ClassIndex) (m : Method) : Prop :=
  (∀ v ∈ writtenDefaults m.params, Export.Loose index Export.maxDepth v) ∧
  ∀ t ∈ m.returnType, t.goesOnNever = false

section
variable {service : String} {index : ClassIndex}

theorem mem_paramLayouts {ps : List Param} {t : ParamText}
    (h : t ∈ paramLayouts service index ps) :
    ∃ p ∈ ps, ∃ optional, t = p.layout service index optional := by
  induction ps with
  | nil => cases h
  | cons p ps ih =>
    rcases List.mem_cons.1 h with rfl | h
    · exact ⟨p, List.mem_cons_self, _, rfl⟩
    · obtain ⟨q, hq, hlayout⟩ := ih h
      exact ⟨q, List.mem_cons_of_mem _ hq, hlayout⟩

theorem sound_paramLayout (hs : IsPath service) {p : Param} (hp : p.Writable) (optional : Bool) :
    (p.layout service index optional).Sound where
  type t ht := by
    obtain ⟨h, hh, rfl⟩ := Option.map_eq_some_iff.1 (Option.mem_def.1 ht)
    exact isTypeText_render hs (hp.type h hh)
  name := hp.name
  trimmed := hp.trimmed
  alone hv := by
    have hvariadic : p.variadic = true := hv
    simp [Param.layout, hvariadic]

theorem defaults_layout (m : Method) :
    (m.layout service index).defaults =
      (writtenDefaults m.params).map fun v => Utf8.bytesOf (Export.text index v) := by
  unfold MethodText.defaults Method.layout
  dsimp only
  induction m.params with
  | nil => rfl
  | cons p ps ih =>
    rw [paramLayouts, List.filterMap_cons, ih, writtenDefaults, List.map_append]
    cases h : Method.isHeadOptional (p :: ps) && !p.variadic with
    | false => simp [Param.layout, h]
    | true => cases hd : p.default <;> simp [Param.layout, h, hd]

/-- The return type of a stub is that of a declarable type; without one it is the keyword of any
value. -/
theorem returnType_eq (m : Method) : (StubMethod.ofMethod m service index).returnType =
    (m.returnType.getD (.builtin "mixed")).render (some service) := by
  unfold StubMethod.ofMethod
  cases m.returnType with
  | none => simp [TypeHint.render, TypeHint.renderBuiltin]
  | some t => rfl

theorem isDeclarable_returnType {m : Method} (hm : m.Writable index) :
    (m.returnType.getD (.builtin "mixed")).IsDeclarable := by
  have hmixed : "mixed" ∈ TypeHint.spellings := by decide
  have hreturn := hm.returnType
  cases h : m.returnType with
  | none => exact .inl hmixed
  | some t => exact hreturn t h

theorem commentable_append {s t : String} (hs : Commentable (Utf8.bytesOf s))
    (ht : Commentable (Utf8.bytesOf t)) : Commentable (Utf8.bytesOf (s ++ t)) := by
  rw [Utf8.bytesOf_append]
  exact hs.append ht

theorem commentable_joined {texts : List String} (h : ∀ t ∈ texts, Commentable (Utf8.bytesOf t)) :
    Commentable (Utf8.bytesOf (joined "" texts)) := by
  cases texts with
  | nil => exact fun a ha => by cases ha
  | cons t texts =>
    rw [Utf8.bytesOf_joined_cons, bytesOf_empty]
    refine (h t List.mem_cons_self).append fun a ha => ?_
    obtain ⟨s, hs, ha⟩ := List.mem_flatMap.1 ha
    exact h s (List.mem_cons_of_mem _ hs) a ha

theorem commentable_docText (hs : IsPath service) {p : Param} (hp : p.Writable) :
    Commentable (Utf8.bytesOf (StubMethod.docText service p)) := by
  have htype : Commentable (Utf8.bytesOf (StubMethod.typePart service p)) := by
    unfold StubMethod.typePart
    split
    · rename_i t ht
      exact commentable_append (isTypeText_render hs (hp.type t ht)).commentable (by decide +kernel)
    · exact fun a ha => by cases ha
  have hspread : Commentable (Utf8.bytesOf (StubMethod.spread p)) := by
    unfold StubMethod.spread
    split <;> decide +kernel
  unfold StubMethod.docText
  exact commentable_append (commentable_append (commentable_append (commentable_append
    (by decide +kernel) htype) hspread) (by decide +kernel)) (commentable_name hp.name)

/-- The layout of a method is well written, its defaults and its return type aside. -/
theorem sound_layout (hs : IsPath service) {m : Method} (hm : m.Writable index) :
    (m.layout service index).Sound where
  doc := by
    have hreturn : Commentable (Utf8.bytesOf (StubMethod.ofMethod m service index).returnType) := by
      rw [returnType_eq]
      exact (isTypeText_render hs (isDeclarable_returnType hm)).commentable
    have hlines : Commentable (Utf8.bytesOf (joined "" (m.params.map fun p =>
        "         * " ++ StubMethod.docText service p ++ "\n"))) := by
      refine commentable_joined (List.forall_mem_map.2 fun p hp => ?_)
      exact commentable_append (commentable_append (by decide +kernel)
        (commentable_docText hs (hm.params p hp))) (by decide +kernel)
    exact commentable_append (commentable_append (commentable_append (commentable_append
      (by decide +kernel) hlines) (by decide +kernel)) hreturn) (by decide +kernel)
  name := hm.name
  params t ht := by
    obtain ⟨p, hp, optional, rfl⟩ := mem_paramLayouts ht
    exact sound_paramLayout hs (hm.params p hp) optional
  returnType := by
    have hcases := TypeHint.returnText_render hs (isDeclarable_returnType hm)
    rw [← @returnType_eq service index m] at hcases
    exact hcases.imp And.right And.right
  note := by
    have hpath : Commentable (Utf8.bytesOf ("\\" ++ service)) := by
      have htype := (isTypeText_render (h := .cls service) hs (.inl hs)).commentable
      rwa [TypeHint.render] at htype
    have hservice : Commentable (Utf8.bytesOf service) := by
      rw [Utf8.bytesOf_append] at hpath
      exact fun a ha => hpath a (List.mem_append_right _ ha)
    exact commentable_append (commentable_append (by decide +kernel) hservice) (by decide +kernel)

/-- A method can be read exactly if it is legible. -/
theorem readable_layout_iff (hs : IsPath service) {m : Method} (hm : m.Writable index) :
    (m.layout service index).Readable ↔ m.Legible index := by
  have hdefaults : (∀ t ∈ (m.layout service index).defaults, IsDefaultText t) ↔
      ∀ v ∈ writtenDefaults m.params, Export.Loose index Export.maxDepth v := by
    rw [defaults_layout, List.forall_mem_map]
    exact forall₂_congr fun v hv => Export.isDefaultText_iff_loose (hm.defaults v hv)
  have hreturn : IsReturnText (m.layout service index).returnType ↔
      ∀ t ∈ m.returnType, t.goesOnNever = false := by
    have hnever : (∀ t ∈ m.returnType, t.goesOnNever = false) ↔
        (m.returnType.getD (.builtin "mixed")).goesOnNever = false := by
      cases m.returnType <;> simp [TypeHint.goesOnNever]
    have htext : (m.layout service index).returnType =
        Utf8.bytesOf ((m.returnType.getD (.builtin "mixed")).render (some service)) :=
      congrArg Utf8.bytesOf (returnType_eq m)
    rw [hnever, htext]
    rcases TypeHint.returnText_render hs (isDeclarable_returnType hm) with ⟨h, htext⟩ | ⟨h, hbroken⟩
    · exact iff_of_true htext h
    · exact iff_of_false hbroken.not_isReturnText (by rw [h]; simp)
  exact ⟨fun h => ⟨hdefaults.1 h.defaults, hreturn.1 h.returnType⟩,
    fun h => ⟨hdefaults.2 h.1, hreturn.2 h.2⟩⟩

/-- A helper file of writable classes is read as the classes that were written exactly if all
methods that they forward are legible. If not, it is not in the grammar. -/
theorem fileFacts?_helperText_iff [Recovery] {fs : List Front} (hfs : ∀ f ∈ fs, f.Writable index)
    (path : String) :
    (∃ facts, fileFacts? path (Utf8.bytesOf (helperText (fs.map (Front.stub index)))) = some facts ∧
      facts.hasErrors = false ∧ facts.classes.map ClassDecl.outline = fs.map (Front.outline index)) ↔
    ∀ f ∈ fs, ∀ m ∈ f.methods index, m.Legible index := by
  have hsound : ∀ f ∈ fs, (f.layout index).Sound := fun f hf =>
    ⟨(hfs f hf).shortName, List.forall_mem_map.2 fun m hm =>
      sound_layout (hfs f hf).service ((hfs f hf).methods m hm)⟩
  have hnamespaces : ∀ m ∈ namespaces index fs, m.Sound := by
    intro m hm
    refine ⟨?_, forall_namespaces_iff.2 hsound m hm⟩
    obtain ⟨f, hf, hname⟩ := name_of_mem_namespaces hm
    rw [hname]
    exact (hfs f hf).namespaceName
  have hdefaults : ∀ m ∈ namespaces index fs, ∀ t ∈ m.defaults,
      IsDefaultText t ∨ IsBrokenDefault t := by
    have hclasses : ∀ m ∈ namespaces index fs, ∀ c ∈ m.classes, ∀ t ∈ c.defaults,
        IsDefaultText t ∨ IsBrokenDefault t := by
      refine forall_namespaces_iff.2 fun f hf t ht => ?_
      obtain ⟨_, hlayout, ht⟩ := List.mem_flatMap.1 ht
      obtain ⟨m, hm, rfl⟩ := List.mem_map.1 hlayout
      rw [defaults_layout] at ht
      obtain ⟨v, hv, rfl⟩ := List.mem_map.1 ht
      exact Export.defaultText_cases (((hfs f hf).methods m hm).defaults v hv)
    intro m hm t ht
    obtain ⟨c, hc, ht⟩ := List.mem_flatMap.1 ht
    exact hclasses m hm c hc t ht
  have hfile := fileFacts?_file hnamespaces hdefaults path
  rw [flatMap_outlines_namespaces, ← bytesOf_helperText] at hfile
  rw [hfile]
  refine forall_namespaces_iff.trans (forall₂_congr fun f hf => ?_)
  refine List.forall_mem_map.trans (forall₂_congr fun m hm => ?_)
  exact readable_layout_iff (hfs f hf).service ((hfs f hf).methods m hm)

end

end FacadeStubs
