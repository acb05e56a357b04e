import FacadeStubs.Declaration
import FacadeStubs.Proofs.Names.Reading
import Mathlib.Data.List.Induction

/-!
# What a class name stands for

The rules for class names, and that a scope follows them. A scope is the outcome of a run over a file:
namespaces begin and classes are imported, in any order and number.

* `Resolves`: the rules, as a relation between a name and what it stands for;
* `resolve_iff`: a scope that holds the namespace and the imports resolves names by the rules;
* `run_eq`: after a run the scope holds the last namespace and what was imported since;
* `resolve_follows_rules`: after a run names are resolved by the rules, and the run may as well import
  each class by a declaration of its own;
* `loose_group_misread`: a gap before the backslash of a group breaks this.
-/
namespace FacadeStubs

namespace UseSyntax

/-! ## The rules -/

/-- A name by its first segment and what follows it, if the first segment is neither missing nor the
keyword for the current namespace. -/
structure Ordinary (first rest : List Char) : Prop where
  segment : '\\' ∉ first
  rest_begins : ∀ c, rest.head? = some c → c = '\\'
  not_special : rest ≠ [] → first ≠ [] ∧ lowered first ≠ "namespace".toList

/-- What a class name stands for in a namespace, after some imports (the latest one last). -/
inductive Resolves (ns : Option String) (imports : List Import) : List Char → String → Prop
  | absolute (rest : List Char) : Resolves ns imports ('\\' :: rest) (String.ofList rest)
  | relative {word : List Char} (rest : List Char) (hword : lowered word = "namespace".toList) :
      Resolves ns imports (word ++ '\\' :: rest) (qualifiedName ns (String.ofList rest))
  | imported {first rest : List Char} {earlier later : List Import} {i : Import}
      (hname : Ordinary first rest) (hmade : imports = earlier ++ i :: later)
      (hshort : lowered i.short = lowered first)
      (hlatest : ∀ j ∈ later, lowered j.short ≠ lowered first) :
      Resolves ns imports (first ++ rest) (i.full ++ String.ofList rest)
  | unimported {first rest : List Char} (hname : Ordinary first rest)
      (hnone : ∀ i ∈ imports, lowered i.short ≠ lowered first) :
      Resolves ns imports (first ++ rest) (qualifiedName ns (String.ofList (first ++ rest)))

/-! ## Names taken apart -/

/-- A name is absolute, relative to the current namespace, or ordinary. -/
theorem name_cases (name : List Char) :
    (∃ rest, name = '\\' :: rest) ∨
      (∃ word rest, name = word ++ '\\' :: rest ∧ lowered word = "namespace".toList) ∨
      ∃ first rest, name = first ++ rest ∧ Ordinary first rest := by
  set first := name.takeWhile (· != '\\') with hfirst
  set rest := name.dropWhile (· != '\\') with hrest
  have hname : name = first ++ rest := (List.takeWhile_append_dropWhile ..).symm
  have hsegment : '\\' ∉ first := by
    intro hmem
    have h := List.mem_takeWhile_imp hmem
    simp at h
  have hbegins : ∀ c, rest.head? = some c → c = '\\' := by
    intro c hc
    have h := List.head?_dropWhile_not (· != '\\') name
    rw [← hrest, hc] at h
    simpa using h
  by_cases hempty : rest = []
  · exact Or.inr (Or.inr ⟨first, rest, hname, hsegment, hbegins, fun h => absurd hempty h⟩)
  · obtain ⟨c, more, hmore⟩ := List.exists_cons_of_ne_nil hempty
    obtain rfl : c = '\\' := hbegins c (by rw [hmore]; rfl)
    by_cases hnil : first = []
    · exact Or.inl ⟨more, by rw [hname, hnil, hmore]; rfl⟩
    · by_cases hword : lowered first = "namespace".toList
      · exact Or.inr (Or.inl ⟨first, more, by rw [hname, hmore], hword⟩)
      · exact Or.inr (Or.inr ⟨first, rest, hname, hsegment, hbegins, fun _ => ⟨hnil, hword⟩⟩)

theorem afterNamespaceWord?_relative {word : List Char} (hword : lowered word = "namespace".toList)
    (rest : List Char) : NameScope.afterNamespaceWord? (word ++ '\\' :: rest) = some rest := by
  have hlength : word.length = 9 := by
    rw [← length_lowered, hword]
    rfl
  have htake : (word ++ '\\' :: rest).take 10 = word ++ ['\\'] := by
    simp [List.take_append, hlength, List.take_of_length_le (Nat.le_of_lt (by omega : word.length < 10))]
  have hlowered : lowered (word ++ ['\\']) = "namespace\\".toList := by
    rw [lowered, List.map_append, ← lowered, hword]
    decide
  have hdrop : (word ++ '\\' :: rest).drop 10 = rest := by
    simp [List.drop_append, hlength]
  unfold NameScope.afterNamespaceWord?
  rw [htake, hlowered, hdrop]
  simp

theorem eq_backslash_of_toLower {c : Char} (h : c.toLower = '\\') : c = '\\' := by
  by_cases hupper : 65 ≤ c.val ∧ c.val ≤ 90
  · have hlower : c.toLower.val = c.val + 32 := congrArg Char.val (dif_pos hupper)
    have hval : (c.val + 32).toNat = 92 := by rw [← hlower, h]; rfl
    have hlow : 65 ≤ c.val.toNat := hupper.1
    have hhigh : c.val.toNat ≤ 90 := hupper.2
    have hsum : (c.val.toNat + 32) % 2 ^ 32 = 92 := hval
    omega
  · have hsame : c.toLower = c := dif_neg hupper
    rwa [hsame] at h

/-- The keyword for the current namespace is found only where it stands. -/
theorem exists_relative {name : List Char} (h : lowered (name.take 10) = "namespace\\".toList) :
    ∃ word rest, name = word ++ '\\' :: rest ∧ lowered word = "namespace".toList := by
  have hlast : lowered (name.take 10) = "namespace".toList ++ ['\\'] := h
  obtain ⟨word, last, hsplit, hword, hback⟩ := List.map_eq_append_iff.mp hlast
  obtain ⟨c, rfl, hc⟩ := List.map_eq_singleton_iff.mp hback
  obtain rfl := eq_backslash_of_toLower hc
  refine ⟨word, name.drop 10, ?_, hword⟩
  have hname := List.take_append_drop 10 name
  rw [hsplit] at hname
  simpa using hname.symm

namespace Ordinary

variable {first rest : List Char}

theorem not_absolute (h : Ordinary first rest) (more : List Char) : first ++ rest ≠ '\\' :: more := by
  intro heq
  cases first with
  | nil =>
    have hne : rest ≠ [] := by
      rintro rfl
      cases heq
    exact (h.not_special hne).1 rfl
  | cons c first =>
    obtain ⟨rfl, -⟩ := List.cons.inj heq
    exact h.segment List.mem_cons_self

theorem cutAt?_eq (h : Ordinary first rest) :
    cutAt? '\\' (first ++ rest) = rest.tail?.map fun more => (first, more) := by
  cases rest with
  | nil => simp [cutAt?_eq_none h.segment]
  | cons c more =>
    obtain rfl := h.rest_begins c rfl
    simp [cutAt?_append '\\' more first h.segment]

theorem afterNamespaceWord?_eq_none (h : Ordinary first rest) :
    NameScope.afterNamespaceWord? (first ++ rest) = none := by
  unfold NameScope.afterNamespaceWord?
  refine if_neg fun hfront => ?_
  obtain ⟨word, more, hname, hword⟩ := exists_relative (by simpa using hfront)
  have hsegment : '\\' ∉ word := by
    intro hmem
    have hback : '\\' ∈ "namespace".toList := by
      rw [← hword]
      exact List.mem_map_of_mem hmem
    revert hback
    decide
  have hcut := cutAt?_append '\\' more word hsegment
  rw [← hname, h.cutAt?_eq] at hcut
  cases rest with
  | nil => cases hcut
  | cons c rest =>
    obtain rfl : first = word := by
      simp only [List.tail?_cons, Option.map_some, Option.some.injEq, Prod.mk.injEq] at hcut
      exact hcut.1
    exact (h.not_special (by simp)).2 hword

end Ordinary

/-! ## Lookup -/

/-- The latest import under a name is found first. -/
theorem imported?_eq_some {scope : NameScope} {earlier later : List Import} {i : Import}
    {first : List Char}
    (hscope : scope.imports = ((earlier ++ i :: later).map Import.entry).reverse)
    (hshort : lowered i.short = lowered first)
    (hlatest : ∀ j ∈ later, lowered j.short ≠ lowered first) :
    scope.imported? first = some i.full := by
  have hnone : (later.map Import.entry).reverse.find?
      (fun entry => entry.1 == String.ofList (lowered first)) = none := by
    simpa [List.find?_eq_none, Import.entry, String.ofList_inj] using hlatest
  have hfound : (i.entry.1 == String.ofList (lowered first)) = true := by
    simp [Import.entry, hshort]
  have hreverse : scope.imports =
      (later.map Import.entry).reverse ++ i.entry :: (earlier.map Import.entry).reverse := by
    simp [hscope]
  rw [NameScope.imported?, hreverse, List.find?_append, hnone, Option.none_or, List.find?_cons, hfound]
  rfl

theorem imported?_eq_none {scope : NameScope} {imports : List Import} {first : List Char}
    (hscope : scope.imports = (imports.map Import.entry).reverse)
    (hnone : ∀ i ∈ imports, lowered i.short ≠ lowered first) : scope.imported? first = none := by
  simpa [NameScope.imported?, hscope, List.find?_eq_none, Import.entry, String.ofList_inj] using hnone

/-- Some import under a name is the latest, if there is one. -/
theorem latest_or_none (imports : List Import) (first : List Char) :
    (∃ earlier i later, imports = earlier ++ i :: later ∧ lowered i.short = lowered first ∧
      ∀ j ∈ later, lowered j.short ≠ lowered first) ∨
    ∀ i ∈ imports, lowered i.short ≠ lowered first := by
  induction imports with
  | nil => exact Or.inr (by simp)
  | cons i imports ih =>
    rcases ih with ⟨earlier, j, later, rfl, hj, hlatest⟩ | hnone
    · exact Or.inl ⟨i :: earlier, j, later, rfl, hj, hlatest⟩
    · by_cases hi : lowered i.short = lowered first
      · exact Or.inl ⟨[], i, imports, rfl, hi, hnone⟩
      · refine Or.inr fun j hj => ?_
        rcases List.mem_cons.mp hj with rfl | hj
        · exact hi
        · exact hnone j hj

/-! ## Scopes -/

/-- A scope in a namespace after some imports. -/
def scopeAfter (ns : Option String) (imports : List Import) : NameScope :=
  { NameScope.ofNamespace ns with imports := (imports.map Import.entry).reverse }

theorem qualify_scopeAfter (ns : Option String) (imports : List Import) (name : String) :
    (scopeAfter ns imports).qualify name = qualifiedName ns name := by
  cases ns with
  | none => rfl
  | some ns =>
    cases h : ns.isEmpty <;>
      simp [scopeAfter, NameScope.ofNamespace, NameScope.qualify, qualifiedName, Option.filter, h]

/-- An ordinary name is looked up by its first segment. -/
theorem resolve_ordinary (scope : NameScope) {written : String} {first rest : List Char}
    (hwritten : trimBlanks written.toList = first ++ rest) (hname : Ordinary first rest) :
    scope.resolve written =
      ((scope.imported? first).map (· ++ String.ofList rest)).getD
        (scope.qualify (String.ofList (first ++ rest))) := by
  unfold NameScope.resolve
  dsimp only
  rw [hwritten]
  split
  · rename_i more heq
    exact absurd heq (hname.not_absolute more)
  · rw [hname.afterNamespaceWord?_eq_none, hname.cutAt?_eq]
    cases rest with
    | nil => simp
    | cons c more =>
      obtain rfl := hname.rest_begins c rfl
      have hjoin : ∀ full, full ++ "\\" ++ String.ofList more = full ++ String.ofList ('\\' :: more) := by
        intro full
        rw [String.append_assoc, String.ofList_cons]
        rfl
      simp only [List.tail?_cons, Option.map_some]
      cases scope.imported? first with
      | none => rfl
      | some full => exact hjoin full

/-- A name behind the keyword for the current namespace stands below it. -/
theorem resolve_relative (scope : NameScope) {written : String} {word rest : List Char}
    (hwritten : trimBlanks written.toList = word ++ '\\' :: rest)
    (hword : lowered word = "namespace".toList) :
    scope.resolve written = scope.qualify (String.ofList rest) := by
  have hbegins : ∀ more, word ++ '\\' :: rest ≠ '\\' :: more := by
    intro more heq
    cases word with
    | nil => cases hword
    | cons c word =>
      obtain ⟨rfl, -⟩ := List.cons.inj heq
      cases hword
  unfold NameScope.resolve
  dsimp only
  rw [hwritten]
  split
  · rename_i more heq
    exact absurd heq (hbegins more)
  · rw [afterNamespaceWord?_relative hword]

theorem resolve_of_resolves {ns : Option String} {imports : List Import} {written : String}
    {result : String} (h : Resolves ns imports (trimBlanks written.toList) result) :
    (scopeAfter ns imports).resolve written = result := by
  generalize hwritten : trimBlanks written.toList = name at h
  cases h with
  | absolute rest =>
    unfold NameScope.resolve
    rw [hwritten]
    rfl
  | @relative word rest hword =>
    rw [resolve_relative _ hwritten hword]
    exact qualify_scopeAfter ns imports _
  | imported hname hmade hshort hlatest =>
    have hfound := @imported?_eq_some (scopeAfter ns imports) _ _ _ _ (by rw [hmade]; rfl) hshort hlatest
    rw [resolve_ordinary _ hwritten hname, hfound]
    rfl
  | unimported hname hnone =>
    rw [resolve_ordinary _ hwritten hname, imported?_eq_none rfl hnone]
    exact qualify_scopeAfter ns imports _

/-- Every name stands for something. -/
theorem exists_resolves (ns : Option String) (imports : List Import) (name : List Char) :
    ∃ result, Resolves ns imports name result := by
  rcases name_cases name with ⟨rest, rfl⟩ | ⟨word, rest, rfl, hword⟩ | ⟨first, rest, rfl, hname⟩
  · exact ⟨_, .absolute rest⟩
  · exact ⟨_, .relative rest hword⟩
  · rcases latest_or_none imports first with ⟨earlier, i, later, hmade, hshort, hlatest⟩ | hnone
    · exact ⟨_, .imported hname hmade hshort hlatest⟩
    · exact ⟨_, .unimported hname hnone⟩

/-- A scope resolves names by the rules for its namespace and its imports. -/
theorem resolve_iff (ns : Option String) (imports : List Import) (written result : String) :
    (scopeAfter ns imports).resolve written = result ↔
      Resolves ns imports (trimBlanks written.toList) result := by
  constructor
  · rintro rfl
    obtain ⟨result, h⟩ := exists_resolves ns imports (trimBlanks written.toList)
    rwa [resolve_of_resolves h]
  · exact resolve_of_resolves

/-! ## Runs -/

/-- What happens to the scope in the course of a file. -/
inductive Step where
  | enter (ns : Option String)
  | use (declaration : UseDeclaration)

namespace Step

def run? (scope : NameScope) : Step → Option NameScope
  | enter ns => some (scope.enter ns)
  | use declaration => scope.addUse? declaration.text

/-- The namespace that a step leads into. -/
def entered? : Step → Option (Option String)
  | enter ns => some ns
  | use _ => none

/-- The classes that a step imports. -/
def imports : Step → List Import
  | enter _ => []
  | use declaration => declaration.imports

/-- The step with one declaration for each class that it imports. -/
def oneByOne : Step → List Step
  | enter ns => [enter ns]
  | use declaration => declaration.imports.map fun i => use i.declaration

end Step

/-- The namespace after a run that starts in a given one. -/
def namespaceAfter (start : Option String) (steps : List Step) : Option String :=
  (steps.filterMap Step.entered?).getLast?.getD start

/-- The imports made since a namespace was last entered. -/
def importsAfter (steps : List Step) : List Import :=
  (steps.reverse.takeWhile (·.entered?.isNone)).reverse.flatMap Step.imports

@[simp] theorem namespaceAfter_enter (start : Option String) (steps : List Step) (ns : Option String) :
    namespaceAfter start (steps ++ [.enter ns]) = ns := by
  simp [namespaceAfter, Step.entered?]

@[simp] theorem namespaceAfter_use (start : Option String) (steps : List Step)
    (declaration : UseDeclaration) :
    namespaceAfter start (steps ++ [.use declaration]) = namespaceAfter start steps := by
  simp [namespaceAfter, Step.entered?]

@[simp] theorem importsAfter_enter (steps : List Step) (ns : Option String) :
    importsAfter (steps ++ [.enter ns]) = [] := by
  simp [importsAfter, Step.entered?]

@[simp] theorem importsAfter_use (steps : List Step) (declaration : UseDeclaration) :
    importsAfter (steps ++ [.use declaration]) = importsAfter steps ++ declaration.imports := by
  simp [importsAfter, Step.entered?, Step.imports]

/-- What one step does to a scope. -/
theorem run?_scopeAfter {start : Option String} {steps : List Step} {step : Step}
    (h : ∀ declaration, step = .use declaration → declaration.Tight) :
    step.run? (scopeAfter (namespaceAfter start steps) (importsAfter steps)) =
      some (scopeAfter (namespaceAfter start (steps ++ [step])) (importsAfter (steps ++ [step]))) := by
  cases step with
  | enter ns =>
    rw [namespaceAfter_enter, importsAfter_enter]
    rfl
  | use declaration =>
    rw [namespaceAfter_use, importsAfter_use, Step.run?,
      (addUse?_eq_imports_iff _ declaration).mpr (h declaration rfl)]
    simp [scopeAfter]

/-- After a run the scope holds the last namespace and what was imported since. -/
theorem run_eq (start : Option String) (steps : List Step)
    (h : ∀ declaration, Step.use declaration ∈ steps → declaration.Tight) :
    steps.foldlM Step.run? (NameScope.ofNamespace start) =
      some (scopeAfter (namespaceAfter start steps) (importsAfter steps)) := by
  induction steps using List.reverseRecOn with
  | nil => rfl
  | append_singleton steps step ih =>
    have hsteps := ih fun declaration hmem => h declaration (List.mem_append_left _ hmem)
    have hstep : ∀ declaration, step = .use declaration → declaration.Tight := by
      rintro declaration rfl
      exact h declaration (by simp)
    rw [List.foldlM_append, hsteps]
    simp [run?_scopeAfter hstep]

/-- A step does what it does with one declaration for each class. -/
theorem foldlM_oneByOne {step : Step} (h : ∀ declaration, step = .use declaration → declaration.Tight)
    (scope : NameScope) : step.oneByOne.foldlM Step.run? scope = step.run? scope := by
  cases step with
  | enter ns => simp [Step.oneByOne]
  | use declaration =>
    rw [Step.run?, addUse?_one_by_one scope (h declaration rfl), Step.oneByOne, List.foldlM_map]
    rfl

theorem run_oneByOne {steps : List Step}
    (h : ∀ declaration, Step.use declaration ∈ steps → declaration.Tight) (scope : NameScope) :
    (steps.flatMap Step.oneByOne).foldlM Step.run? scope = steps.foldlM Step.run? scope := by
  induction steps generalizing scope with
  | nil => rfl
  | cons step steps ih =>
    have hstep : ∀ declaration, step = .use declaration → declaration.Tight := by
      rintro declaration rfl
      exact h declaration List.mem_cons_self
    rw [List.flatMap_cons, List.foldlM_append, foldlM_oneByOne hstep, List.foldlM_cons]
    congr 1
    funext next
    exact ih (fun declaration hmem => h declaration (List.mem_cons_of_mem _ hmem)) next

/-! ## A group with and without a gap -/

def appSegment : Segment := ⟨['A', 'p', 'p'], by simp, List.all_eq_true.mp (by decide)⟩

def classSegment : Segment := ⟨['B'], by simp, List.all_eq_true.mp (by decide)⟩

theorem appSegment_free : QualifiedName.Free ⟨appSegment, []⟩ := by
  unfold QualifiedName.Free
  decide

theorem classSegment_free : QualifiedName.Free ⟨classSegment, []⟩ := by
  unfold QualifiedName.Free
  decide

/-- The declaration of a group with one class `B` below `App`, with a gap before the backslash. -/
def groupOf (before : Gap) : UseDeclaration where
  before := ⟨[], blanks_nil⟩
  keyword := useKeyword
  space := oneSpace
  announced? := none
  body := .group
    { rooted := false
      name := ⟨appSegment, []⟩
      free := fun _ => appSegment_free }
    before ⟨[], blanks_nil⟩ ⟨[], blanks_nil⟩
    { first :=
        { announced? := none
          name := ⟨classSegment, []⟩
          free := classSegment_free
          alias? := none }
      rest := []
      trailing? := none }
    ⟨[], blanks_nil⟩
  ending := ⟨[], blanks_nil⟩
  semicolon := true
  after := ⟨[], blanks_nil⟩

/-- A file that begins a namespace and imports the group. -/
def groupSteps (before : Gap) : List Step := [.enter (some "N"), .use (groupOf before)]

/-- By the rules the class stands for the one below the front, whatever the gap. -/
theorem groupSteps_resolves (before : Gap) :
    Resolves (namespaceAfter none (groupSteps before)) (importsAfter (groupSteps before)) ['B'] "App\\B" := by
  have hname : Ordinary ['B'] [] := ⟨by decide, by simp, fun h => absurd rfl h⟩
  have hmade : importsAfter (groupSteps before) =
      [] ++ (⟨⟨appSegment, [classSegment]⟩, none⟩ : Import) :: [] := rfl
  exact .imported hname hmade rfl (by simp)

/-! ## Names after a run -/

/-- After any run in which no gap keeps classes from their name, every name is resolved by the rules for
the last namespace and the imports made since, and importing each class by a declaration of its own
leads to the same scope. -/
theorem resolve_follows_rules (start : Option String) (steps : List Step)
    (h : ∀ declaration, Step.use declaration ∈ steps → declaration.Tight) :
    ∃ scope, steps.foldlM Step.run? (NameScope.ofNamespace start) = some scope ∧
      (steps.flatMap Step.oneByOne).foldlM Step.run? (NameScope.ofNamespace start) = some scope ∧
      ∀ written result, scope.resolve written = result ↔
        Resolves (namespaceAfter start steps) (importsAfter steps) (trimBlanks written.toList) result := by
  have hrun := run_eq start steps h
  refine ⟨_, hrun, ?_, fun written result => resolve_iff _ _ written result⟩
  rw [run_oneByOne h, hrun]

theorem resolve_follows_rules_group : ∃ scope,
    (groupSteps ⟨[], blanks_nil⟩).foldlM Step.run? (NameScope.ofNamespace none) = some scope ∧
      scope.resolve "B" = "App\\B" := by
  have htight : ∀ declaration, Step.use declaration ∈ groupSteps ⟨[], blanks_nil⟩ →
      declaration.Tight := by
    intro declaration hmem
    obtain rfl : declaration = groupOf ⟨[], blanks_nil⟩ := by simpa [groupSteps] using hmem
    exact fun _ => Or.inl rfl
  obtain ⟨scope, hrun, -, hresolve⟩ := resolve_follows_rules none (groupSteps ⟨[], blanks_nil⟩) htight
  exact ⟨scope, hrun, (hresolve "B" "App\\B").mpr (groupSteps_resolves _)⟩

/-- Behind a gap the class of the group is not imported, and the name stands for another class than by
the rules. -/
theorem loose_group_misread :
    (groupOf oneSpace.toGap).text = "use App \\\x7bB\x7d;" ∧
      Resolves (namespaceAfter none (groupSteps oneSpace.toGap))
        (importsAfter (groupSteps oneSpace.toGap)) ['B'] "App\\B" ∧
      ((groupSteps oneSpace.toGap).foldlM Step.run? (NameScope.ofNamespace none)).map (·.resolve "B") =
        some "N\\B" :=
  ⟨by decide, groupSteps_resolves _, by decide⟩

end UseSyntax

end FacadeStubs
