import FacadeStubs.Proofs.Export.Defaults
import FacadeStubs.Proofs.Text.Words
import FacadeStubs.Stub.Basic

/-!
# Signatures of stub methods

A parameter can be left out in a call if it has a default and no later one has to be given. Only then is
its default written, so behind a parameter with a default all others have one too, but for those that
take the rest of the arguments. The arguments of the forwarded call and the lines of the documentation
are the parameters again, in their order.

* `isParamOptional_iff`, `isParamOptional_later`: which parameters are optional.
* `showsDefault_iff`, `showsBare_iff`: which defaults are written.
* `argumentsOf_args`, `documentedBy_docText`: the two other lists are read back as the parameters.
* `signature_rules`: the rules of a signature, for any parameters.
-/
namespace FacadeStubs

/-! ## Optional parameters -/

/-- The first parameter of a list is optional if it has a default and the later ones are spare. -/
theorem Method.isHeadOptional_iff {params : List Param} : isHeadOptional params = true ↔
    ∃ p later, params = p :: later ∧ p.default.isSome = true ∧ ∀ q ∈ later, q.isSpare = true := by
  cases params with
  | nil => simp [isHeadOptional]
  | cons p later => simp [isHeadOptional]

/-- A parameter is optional if it has a default and all later ones are spare. -/
theorem Method.isParamOptional_iff {m : Method} {i : Nat} : m.isParamOptional i = true ↔
    (∃ p, m.params[i]? = some p ∧ p.default.isSome = true) ∧
      ∀ j q, i < j → m.params[j]? = some q → q.isSpare = true := by
  rw [isParamOptional, isHeadOptional_iff]
  constructor
  · rintro ⟨p, later, hdrop, hp, hlater⟩
    refine ⟨⟨p, ?_, hp⟩, fun j q hij hq => hlater q ?_⟩
    · rw [← Nat.add_zero i, ← List.getElem?_drop, hdrop, List.getElem?_cons_zero]
    · obtain ⟨k, rfl⟩ := Nat.exists_eq_add_of_lt hij
      rw [Nat.add_assoc, ← List.getElem?_drop, hdrop, List.getElem?_cons_succ] at hq
      exact List.mem_of_getElem? hq
  · rintro ⟨⟨p, hp, hdefault⟩, hlater⟩
    obtain ⟨hi, rfl⟩ := List.getElem?_eq_some_iff.mp hp
    refine ⟨_, _, List.drop_eq_getElem_cons hi, hdefault, fun q hq => ?_⟩
    obtain ⟨k, hk⟩ := List.getElem?_of_mem hq
    rw [List.getElem?_drop] at hk
    exact hlater _ q (by omega) hk

/-- Behind an optional parameter all are optional, but for those that take the rest. -/
theorem Method.isParamOptional_later {m : Method} {i j : Nat} {q : Param}
    (h : m.isParamOptional i = true) (hij : i < j) (hq : m.params[j]? = some q)
    (hvariadic : q.variadic = false) : m.isParamOptional j = true := by
  obtain ⟨-, hlater⟩ := isParamOptional_iff.mp h
  refine isParamOptional_iff.mpr ⟨⟨q, hq, ?_⟩, fun k r hjk hr => hlater k r (by omega) hr⟩
  simpa [Param.isSpare, hvariadic] using hlater j q hij hq

namespace StubMethod

variable {serviceClass : String} {index : ClassIndex} {m : Method} {i : Nat} {p : Param}

/-! ## Defaults that are written -/

/-- A parameter as it stands in the signature without a default. -/
def bareText (serviceClass : String) (p : Param) : String :=
  typePart serviceClass p ++ (if p.byRef then "&" else "") ++ spread p ++ "$" ++ p.name

/-- In the list of parameters, one stands with its default. -/
def ShowsDefault (serviceClass : String) (index : ClassIndex) (m : Method) (i : Nat) : Prop :=
  ∃ p value, m.params[i]? = some p ∧ p.default = some value ∧
    (paramTexts serviceClass index m.params)[i]? =
      some (bareText serviceClass p ++ (" = " ++ Export.text index value))

/-- In the list of parameters, one stands without a default. -/
def ShowsBare (serviceClass : String) (index : ClassIndex) (m : Method) (i : Nat) : Prop :=
  ∃ p, m.params[i]? = some p ∧
    (paramTexts serviceClass index m.params)[i]? = some (bareText serviceClass p)

theorem paramText_eq (serviceClass : String) (index : ClassIndex) (optional : Bool) (p : Param) :
    paramText serviceClass index optional p =
      bareText serviceClass p ++ defaultPart index optional p := rfl

/-- What is decided about a default depends on the parameters from there on. -/
theorem getElem?_paramTexts (serviceClass : String) (index : ClassIndex) (params : List Param)
    (i : Nat) : (paramTexts serviceClass index params)[i]? =
      params[i]?.map (paramText serviceClass index (Method.isHeadOptional (params.drop i))) := by
  induction params generalizing i with
  | nil => rfl
  | cons p later ih =>
    cases i with
    | zero => rfl
    | succ i => simpa [paramTexts] using ih i

theorem paramTexts_get (hp : m.params[i]? = some p) :
    (paramTexts serviceClass index m.params)[i]? =
      some (bareText serviceClass p ++ defaultPart index (m.isParamOptional i) p) := by
  rw [getElem?_paramTexts, hp, Option.map_some, paramText_eq, Method.isParamOptional]

/-- A default that is written is not empty. -/
theorem bareText_ne (value : Literal) :
    bareText serviceClass p ≠ bareText serviceClass p ++ (" = " ++ Export.text index value) := by
  intro heq
  have hlength := congrArg String.length heq
  simp only [String.length_append] at hlength
  have hsign : (" = " : String).length = 3 := by decide
  omega

/-- A default is written if its parameter is optional and does not take the rest of the arguments. -/
theorem showsDefault_iff : ShowsDefault serviceClass index m i ↔
    m.isParamOptional i = true ∧ ∃ p, m.params[i]? = some p ∧ p.variadic = false := by
  constructor
  · rintro ⟨p, value, hp, hvalue, htext⟩
    rw [paramTexts_get hp, defaultPart, hvalue] at htext
    by_cases hshown : (m.isParamOptional i && !p.variadic) = true
    · obtain ⟨hoptional, hvariadic⟩ := Bool.and_eq_true_iff.mp hshown
      exact ⟨hoptional, p, hp, by simpa using hvariadic⟩
    · have hbare : bareText serviceClass p = bareText serviceClass p ++ (" = " ++ Export.text index value) := by
        simpa [hshown] using htext
      exact absurd hbare (bareText_ne value)
  · rintro ⟨hoptional, p, hp, hvariadic⟩
    obtain ⟨⟨p', hp', hdefault⟩, -⟩ := Method.isParamOptional_iff.mp hoptional
    obtain rfl : p = p' := Option.some.inj (hp.symm.trans hp')
    obtain ⟨value, hvalue⟩ := Option.isSome_iff_exists.mp hdefault
    refine ⟨p, value, hp, hvalue, ?_⟩
    rw [paramTexts_get hp, defaultPart, hvalue, hoptional, hvariadic]
    rfl

/-- All other parameters stand without a default. -/
theorem showsBare_iff : ShowsBare serviceClass index m i ↔
    (∃ p, m.params[i]? = some p) ∧ ¬ ShowsDefault serviceClass index m i := by
  constructor
  · rintro ⟨p, hp, htext⟩
    refine ⟨⟨p, hp⟩, ?_⟩
    rintro ⟨p', value, hp', -, htext'⟩
    obtain rfl : p = p' := Option.some.inj (hp.symm.trans hp')
    exact bareText_ne value (Option.some.inj (htext.symm.trans htext'))
  · rintro ⟨⟨p, hp⟩, hnot⟩
    refine ⟨p, hp, ?_⟩
    rw [paramTexts_get hp, defaultPart]
    cases hvalue : p.default with
    | none => simp
    | some value =>
      have hhidden : (m.isParamOptional i && !p.variadic) = false := by
        by_contra hshown
        rw [Bool.not_eq_false, Bool.and_eq_true_iff, Bool.not_eq_true'] at hshown
        exact hnot (showsDefault_iff.mpr ⟨hshown.1, p, hp, hshown.2⟩)
      simp [hhidden]

/-! ## Arguments and documentation read back -/

/-- The parameter that an argument names, and whether it is spread. -/
def namedBy? (argument : List Char) : Option (Bool × String) :=
  match afterStart? ['.', '.', '.', '$'] argument with
  | some name => some (true, String.ofList name)
  | none => (afterStart? ['$'] argument).map fun name => (false, String.ofList name)

/-- The parameters that a list of arguments names. -/
def argumentsOf (text : String) : List (Bool × String) :=
  (pieces ',' text.toList).filterMap fun piece => namedBy? (piece.dropWhile isBlank)

/-- The parameter at the end of a line of the documentation, and whether it is spread. -/
def documentedBy? (line : String) : Option (Bool × String) :=
  (cutAtLast? '$' line.toList).map fun (front, name) =>
    (['.', '.', '.'].isSuffixOf front, String.ofList name)

theorem namedBy?_argText (p : Param) : namedBy? (argText p).toList = some (p.variadic, p.name) := by
  cases hvariadic : p.variadic <;>
    simp [argText, spread, hvariadic, namedBy?, afterStart?, String.toList_append]

theorem argText_begins (p : Param) : (argText p).toList.dropWhile isBlank = (argText p).toList := by
  cases hvariadic : p.variadic <;>
    simp [argText, spread, hvariadic, String.toList_append, isBlank]

theorem comma_argText (hp : ',' ∉ p.name.toList) : ',' ∉ (argText p).toList := by
  cases hvariadic : p.variadic <;> simp [argText, spread, hvariadic, String.toList_append, hp]

/-- The blank behind a comma is no part of the argument. -/
theorem namedBy?_blank (p : Param) :
    namedBy? ((' ' :: (argText p).toList).dropWhile isBlank) = some (p.variadic, p.name) := by
  have hblank : isBlank ' ' = true := by decide
  rw [List.dropWhile_cons, if_pos hblank, argText_begins, namedBy?_argText]

/-- Behind the first argument, each stands behind a comma and a blank. -/
theorem toList_args (p : Param) (later : List Param) :
    (joined ", " ((p :: later).map argText)).toList =
      (argText p).toList ++ later.flatMap fun q => ',' :: ' ' :: (argText q).toList := by
  induction later generalizing p with
  | nil => simp [joined]
  | cons q later ih =>
    rw [List.map_cons, List.map_cons, joined, String.intercalate_cons_cons, String.toList_append,
      String.toList_append, ← List.map_cons, ← joined, ih q, List.flatMap_cons]
    simp

theorem pieces_args {t : List Char} (ht : ',' ∉ t) {later : List Param}
    (hlater : ∀ q ∈ later, ',' ∉ q.name.toList) :
    pieces ',' (t ++ later.flatMap fun q => ',' :: ' ' :: (argText q).toList) =
      t :: later.map fun q => ' ' :: (argText q).toList := by
  induction later generalizing t with
  | nil => simpa using pieces_single ht
  | cons q later ih =>
    rw [List.forall_mem_cons] at hlater
    have hpiece : ',' ∉ ' ' :: (argText q).toList := by simpa using comma_argText hlater.1
    rw [List.flatMap_cons, List.cons_append, pieces_append _ ht, ih hpiece hlater.2, List.map_cons]

/-- The arguments of the call name the parameters in their order. -/
theorem argumentsOf_args {params : List Param} (h : ∀ p ∈ params, ',' ∉ p.name.toList) :
    argumentsOf (joined ", " (params.map argText)) = params.map fun p => (p.variadic, p.name) := by
  cases params with
  | nil => rfl
  | cons p later =>
    rw [List.forall_mem_cons] at h
    rw [argumentsOf, toList_args, pieces_args (comma_argText h.1) h.2,
      List.filterMap_cons_some ((argText_begins p).symm ▸ namedBy?_argText p), List.filterMap_map]
    have hall : (later.filterMap fun q => namedBy? ((' ' :: (argText q).toList).dropWhile isBlank)) =
        later.map fun q => (q.variadic, q.name) :=
      (List.filterMap_congr fun q _ => namedBy?_blank q).trans
        (congrFun List.filterMap_eq_map later)
    rw [List.map_cons]
    exact congrArg _ hall

/-- In front of the dots or the name of a parameter stands a blank. -/
theorem exists_docText (serviceClass : String) (p : Param) : ∃ front,
    (docText serviceClass p).toList = (front ++ ' ' :: (spread p).toList) ++ '$' :: p.name.toList := by
  cases htype : p.typeHint with
  | none => exact ⟨"@param".toList, by simp [docText, typePart, htype, String.toList_append]⟩
  | some t =>
    exact ⟨"@param ".toList ++ (t.render (some serviceClass)).toList,
      by simp [docText, typePart, htype, String.toList_append]⟩

theorem documentedBy_docText (hp : '$' ∉ p.name.toList) :
    documentedBy? (docText serviceClass p) = some (p.variadic, p.name) := by
  obtain ⟨front, htext⟩ := exists_docText serviceClass p
  have hdots : ['.', '.', '.'].isSuffixOf (front ++ ' ' :: (spread p).toList) = p.variadic := by
    cases hvariadic : p.variadic with
    | true =>
      rw [List.isSuffixOf_iff_suffix]
      exact ⟨front ++ [' '], by simp [spread, hvariadic]⟩
    | false =>
      rw [← Bool.not_eq_true, List.isSuffixOf_iff_suffix]
      rintro ⟨t, ht⟩
      have hlast := congrArg List.getLast? ht
      simp [spread, hvariadic] at hlast
  rw [documentedBy?, htext, cutAtLast?_append hp, Option.map_some]
  exact congrArg some (Prod.ext hdots String.ofList_toList)

/-! ## The rules of a signature -/

/-- The rules of a signature, for any parameters: which defaults are written, and that the other two
lists name the parameters. -/
structure IsSignature (serviceClass : String) (index : ClassIndex) (m : Method) (stub : StubMethod) :
    Prop where
  /-- The list has one text for each parameter. -/
  params : stub.params = joined ", " (paramTexts serviceClass index m.params) ∧
    (paramTexts serviceClass index m.params).length = m.params.length
  /-- Each parameter stands with its default or without one. -/
  shown : ∀ i p, m.params[i]? = some p →
    (ShowsDefault serviceClass index m i ↔ ¬ ShowsBare serviceClass index m i)
  /-- Behind a default only parameters that take the rest stand without one. -/
  defaults : ∀ i j q, ShowsDefault serviceClass index m i → i < j → m.params[j]? = some q →
    q.variadic = false → ShowsDefault serviceClass index m j
  /-- A parameter that takes the rest has none. -/
  variadic : ∀ i p, m.params[i]? = some p → p.variadic = true → ShowsBare serviceClass index m i
  /-- A default in front of a parameter that has to be given is left out. -/
  required : ∀ i j p q, m.params[i]? = some p → i < j → m.params[j]? = some q →
    q.isSpare = false → ShowsBare serviceClass index m i
  /-- Every other default is written. -/
  written : ∀ i p, m.params[i]? = some p → p.default.isSome = true → p.variadic = false →
    (∀ j q, i < j → m.params[j]? = some q → q.isSpare = true) → ShowsDefault serviceClass index m i
  args : stub.args = joined ", " (m.params.map argText)
  docs : stub.docParams = m.params.map (docText serviceClass)
  /-- The arguments are the parameters in their order, spread where they take the rest. -/
  arguments : (∀ p ∈ m.params, ',' ∉ p.name.toList) →
    argumentsOf stub.args = m.params.map fun p => (p.variadic, p.name)
  /-- So are the lines of the documentation. -/
  documentation : (∀ p ∈ m.params, '$' ∉ p.name.toList) →
    stub.docParams.map documentedBy? = m.params.map fun p => some (p.variadic, p.name)

theorem length_paramTexts (serviceClass : String) (index : ClassIndex) (params : List Param) :
    (paramTexts serviceClass index params).length = params.length := by
  induction params with
  | nil => rfl
  | cons p later ih => rw [paramTexts, List.length_cons, List.length_cons, ih]

theorem isSignature_ofMethod (m : Method) (serviceClass : String) (index : ClassIndex) :
    IsSignature serviceClass index m (ofMethod m serviceClass index) where
  params := ⟨rfl, length_paramTexts _ _ _⟩
  shown i p hp := by
    rw [showsBare_iff, not_and, not_not]
    exact ⟨fun h _ => h, fun h => h ⟨p, hp⟩⟩
  defaults i j q hi hij hq hvariadic := by
    obtain ⟨hoptional, -⟩ := showsDefault_iff.mp hi
    exact showsDefault_iff.mpr
      ⟨Method.isParamOptional_later hoptional hij hq hvariadic, q, hq, hvariadic⟩
  variadic i p hp hvariadic := by
    refine showsBare_iff.mpr ⟨⟨p, hp⟩, fun hshown => ?_⟩
    obtain ⟨-, p', hp', hnot⟩ := showsDefault_iff.mp hshown
    obtain rfl : p = p' := Option.some.inj (hp.symm.trans hp')
    rw [hvariadic] at hnot
    cases hnot
  required i j p q hp hij hq hrequired := by
    refine showsBare_iff.mpr ⟨⟨p, hp⟩, fun hshown => ?_⟩
    obtain ⟨hoptional, -⟩ := showsDefault_iff.mp hshown
    rw [(Method.isParamOptional_iff.mp hoptional).2 j q hij hq] at hrequired
    cases hrequired
  written i p hp hdefault hvariadic hlater :=
    showsDefault_iff.mpr ⟨Method.isParamOptional_iff.mpr ⟨⟨p, hp, hdefault⟩, hlater⟩, p, hp, hvariadic⟩
  args := rfl
  docs := rfl
  arguments h := argumentsOf_args h
  documentation h := by
    rw [ofMethod, List.map_map]
    refine List.map_congr_left fun p hp => ?_
    rw [Function.comp_apply, documentedBy_docText (h p hp)]

end StubMethod

/-- The stub of a method with any parameters follows the rules of signatures, and behind an optional
parameter every one is optional that does not take the rest of the arguments. What stands behind the equals
sign is the default as it is exported, which is read as an expression unless two signs make one token. -/
theorem signature_rules (m : Method) (serviceClass : String) (index : ClassIndex) :
    StubMethod.IsSignature serviceClass index m (StubMethod.ofMethod m serviceClass index) ∧
      (∀ i j q, m.isParamOptional i = true → i < j → m.params[j]? = some q → q.variadic = false →
        m.isParamOptional j = true) ∧
      ∀ i, StubMethod.ShowsDefault serviceClass index m i → ∃ p value, m.params[i]? = some p ∧
        p.default = some value ∧ (StubMethod.paramTexts serviceClass index m.params)[i]? =
          some (StubMethod.bareText serviceClass p ++ (" = " ++ Export.text index value)) ∧
        (Export.Nested index Export.maxDepth value →
          (Php.IsDefaultText (Utf8.bytesOf (Export.text index value)) ↔
            Export.Loose index Export.maxDepth value)) := by
  refine ⟨StubMethod.isSignature_ofMethod m serviceClass index,
    fun _ _ _ hi hij hq hvariadic => Method.isParamOptional_later hi hij hq hvariadic, ?_⟩
  rintro i ⟨p, value, hp, hvalue, htext⟩
  exact ⟨p, value, hp, hvalue, htext, Export.isDefaultText_iff_loose⟩

/-- The first default stands in front of a parameter that has to be given. -/
example : (StubMethod.ofMethod
    { name := "f"
      params := [{ name := "a", default := some .null }, { name := "b" },
        { name := "c", default := some .null, byRef := true }, { name := "d", variadic := true }] }
    "S" {}).params = "$a, $b, &$c = NULL, ...$d" := by
  decide +kernel

end FacadeStubs
