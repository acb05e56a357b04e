import FacadeStubs.Proofs.Names.Syntax

/-!
# Reading import declarations

What is read from the text of an import declaration. The keywords, the end, the braces and the commas
are found by trimming and cutting, so each step says what is left of the text.

* `importOf?_text`: a clause is read as the import it states;
* `importOf?_loose`: a clause with a gap in its name is read as what stands before the gap;
* `UseDeclaration.useClauses?_text`: a text is read as the clauses of its declaration;
* `addUse?_text`, `addUse?_eq_imports_iff`: what reading a declaration adds to a scope, and when that
  is what the declaration imports;
* `addUse?_one_by_one`: then it adds what its members add one by one.
-/
namespace FacadeStubs

namespace UseSyntax

/-! ## Announcements -/

/-- A text that does not go on with a character of a name. -/
def Stops (tail : List Char) : Prop := ∀ c, tail.head? = some c → isSegmentChar c = false

theorem stops_nil : Stops [] := fun _ h => by cases h

theorem stops_gap (g : Gap) {mark : Char} (hmark : isSegmentChar mark = false) (tail : List Char) :
    Stops (g.text ++ mark :: tail) := by
  intro c hc
  cases hg : g.text with
  | nil =>
    obtain rfl : mark = c := by simpa [hg] using hc
    exact hmark
  | cons blank rest =>
    obtain rfl : blank = c := by simpa [hg] using hc
    exact isSegmentChar_of_isBlank (g.blanks _ (hg ▸ List.mem_cons_self))

theorem Stops.alias {tail : List Char} (h : Stops tail) : ∀ a : Option Alias, Stops (aliasText a ++ tail)
  | none => h
  | some a => by
    intro c hc
    obtain ⟨blank, rest, hblank⟩ := List.exists_cons_of_ne_nil a.before.ne_nil
    obtain rfl : blank = c := by simpa [aliasText, Alias.text, hblank] using hc
    exact isSegmentChar_of_isBlank (a.before.blanks _ (hblank ▸ List.mem_cons_self))

/-- Behind the first item of a list stands a comma, or nothing. -/
theorem Listed.stops_rest {α : Type} (write : α → List Char) (rest : List (Gap × Gap × α))
    (trailing? : Option Gap) : Stops (restText write rest ++ trailingText trailing?) := by
  have hcomma : isSegmentChar ',' = false := by decide
  cases rest with
  | cons entry rest =>
    simpa [restText] using stops_gap entry.1 hcomma _
  | nil =>
    cases trailing? with
    | none => exact stops_nil
    | some before => exact stops_gap before hcomma []

/-- An announced text is seen to import no class. -/
theorem importsNoClass_announced (announced : Announcement) (rest : List Char) :
    importsNoClass (announced.text ++ (announced.space.text ++ rest)) = true := by
  unfold importsNoClass
  rcases announced.spells with h | h
  · rw [afterKeyword?_append h announced.space.blanks announced.space.ne_nil]
    rfl
  · rw [afterKeyword?_append h announced.space.blanks announced.space.ne_nil]
    simp

/-- A name is not taken for the keyword that it does not spell, nor for one that it only begins with. -/
theorem afterKeyword?_name {keyword : String} (hkeyword : keyword.toList.all isSegmentChar = true)
    (hne : keyword.toList ≠ []) (n : ImportedName)
    (hother : n.rooted = false → n.name.rest = [] → lowered n.name.first.text ≠ keyword.toList)
    {tail : List Char} (htail : Stops tail) :
    afterKeyword? keyword (n.text ++ tail) = none := by
  have hchars : ∀ c : Char, c.toLower ∈ keyword.toList → isSegmentChar c = true :=
    fun c hc => isSegmentChar_of_toLower (List.all_eq_true.mp hkeyword _ hc)
  have hback : isSegmentChar '\\' = false := by decide
  cases hrooted : n.rooted with
  | true =>
    have htext : n.text ++ tail = [] ++ '\\' :: (n.name.text ++ tail) := by
      simp [ImportedName.text, ImportedName.root, hrooted]
    rw [htext]
    refine afterKeyword?_eq_none hchars (fun c => isSegmentChar_of_isBlank) (by simp) ?_ ?_
    · rintro c ⟨⟩
      exact hback
    · intro h
      exact absurd h.symm hne
  | false =>
    have htext : n.text ++ tail =
        n.name.first.text ++ ((n.name.rest.flatMap fun s => '\\' :: s.text) ++ tail) := by
      simp [ImportedName.text, ImportedName.root, QualifiedName.text, hrooted]
    rw [htext]
    refine afterKeyword?_eq_none hchars (fun c => isSegmentChar_of_isBlank) n.name.first.chars ?_ ?_
    · intro c hc
      cases hrest : n.name.rest with
      | nil => exact htail c (by simpa [hrest] using hc)
      | cons segment rest =>
        obtain rfl : '\\' = c := by simpa [hrest] using hc
        exact hback
    · intro hspells c hc
      cases hrest : n.name.rest with
      | nil => exact absurd hspells (hother hrooted hrest)
      | cons segment rest =>
        obtain rfl : '\\' = c := by simpa [hrest] using hc
        decide

theorem importsNoClass_name (n : ImportedName) {tail : List Char} (htail : Stops tail) :
    importsNoClass (n.text ++ tail) = false := by
  unfold importsNoClass
  rw [afterKeyword?_name (by decide) (by decide) n (fun h hrest => (n.free h hrest).1) htail,
    afterKeyword?_name (by decide) (by decide) n (fun h hrest => (n.free h hrest).2) htail]
  rfl

theorem Member.importsNoClass_text (member : Member) :
    importsNoClass member.text = member.announced?.isSome := by
  unfold Member.text
  cases member.announced? with
  | some announced =>
    rw [announcedText, List.append_assoc]
    exact importsNoClass_announced announced _
  | none =>
    have hstops : Stops (aliasText member.alias?) := by simpa using stops_nil.alias member.alias?
    exact importsNoClass_name ⟨false, member.name, fun _ => member.free⟩ hstops

/-! ## Reading clauses -/

/-- The words of an alias. -/
def aliasWords : Option Alias → List (List Char)
  | none => []
  | some a => [a.keyword.text, a.short.text]

theorem blankWords_text {root : List Char} (hroot : ∀ c ∈ root, c = '\\') (name : QualifiedName)
    (a : Option Alias) :
    blankWords (root ++ (name.text ++ aliasText a)) = (root ++ name.text) :: aliasWords a := by
  have hne : root ++ name.text ≠ [] := by simp [name.ne_nil]
  have hblank := rooted_not_blank hroot name
  cases a with
  | none => simpa [aliasText, aliasWords] using blankWords_single hne hblank
  | some a =>
    have hshort := blankWords_single a.short.ne_nil fun c hc =>
      isBlank_of_isSegmentChar (a.short.chars c hc)
    have has : blankWords (a.keyword.text ++ (a.after.text ++ a.short.text)) =
        [a.keyword.text, a.short.text] := by
      rw [blankWords_append (ne_nil_of_spells a.keyword.spells (by decide))
        (fun c hc => isBlank_of_isSegmentChar (a.keyword.as_chars c hc)) a.after.blanks a.after.ne_nil,
        hshort]
    rw [aliasText, Alias.text, ← List.append_assoc, blankWords_append hne hblank a.before.blanks
      a.before.ne_nil, has, aliasWords]

/-- A clause is read as the import it states. -/
theorem importOf?_text {root : List Char} (hroot : ∀ c ∈ root, c = '\\') (name : QualifiedName)
    (a : Option Alias) :
    importOf? (root ++ (name.text ++ aliasText a)) = some (Import.mk name (a.map (·.short))).entry := by
  unfold importOf?
  rw [blankWords_text hroot]
  cases a with
  | none =>
    simp [aliasWords, name.dropWhile_root hroot, name.lastSegment_text, Import.entry, Import.short,
      Import.full, lowerCase]
  | some a =>
    have has : lowered a.keyword.text = ['a', 's'] := a.keyword.spells
    simp [aliasWords, name.dropWhile_root hroot, has, Import.entry, Import.short, Import.full]

/-- Behind a gap the rest of a clause is not read, unless it is an alias. -/
theorem importOf?_loose {root : List Char} (hroot : ∀ c ∈ root, c = '\\') (front name : QualifiedName)
    {gap : Gap} (hgap : gap.text ≠ []) (a : Option Alias) :
    importOf? (root ++ (front.text ++ (gap.text ++ '\\' :: (name.text ++ aliasText a)))) =
      some (Import.mk front none).entry := by
  have hne : root ++ front.text ≠ [] := by simp [front.ne_nil]
  have hblank := rooted_not_blank hroot front
  have hrest : blankWords ('\\' :: (name.text ++ aliasText a)) = ('\\' :: name.text) :: aliasWords a :=
    blankWords_text (List.forall_mem_singleton.mpr rfl) name a
  unfold importOf?
  rw [← List.append_assoc, blankWords_append hne hblank gap.blanks hgap, hrest]
  have hback : lowered ('\\' :: name.text) ≠ ['a', 's'] := by
    simp [lowered]
  cases a with
  | none =>
    simp [aliasWords, front.dropWhile_root hroot, front.lastSegment_text, Import.entry, Import.short,
      Import.full, lowerCase]
  | some a =>
    simp [aliasWords, front.dropWhile_root hroot, front.lastSegment_text, Import.entry, Import.short,
      Import.full, lowerCase, hback]

/-! ## Reading declarations -/

namespace Body

/-- The clauses of a body, those of a group with its front before each. -/
def clauses : Body → List (List Char)
  | names clauses => clauses.items.map Clause.text
  | group front before _ _ members _ =>
    (classMembers members).map fun m =>
      front.text ++ (before.text ++ '\\' :: (m.name.text ++ aliasText m.alias?))

theorem importOf?_clauses (body : Body) :
    body.clauses.map importOf? = (body.read.map Import.entry).map some := by
  cases body with
  | names clauses =>
    simp only [Body.clauses, read, imports, List.map_map]
    refine List.map_congr_left fun clause _ => ?_
    simp only [Function.comp_apply, Clause.text, ImportedName.text, List.append_assoc]
    exact importOf?_text clause.imported.root_eq _ _
  | group front before after inner members closing =>
    simp only [Body.clauses, read, imports, List.map_map]
    split
    · rename_i htight
      simp only [List.map_map]
      refine List.map_congr_left fun m _ => ?_
      have h := importOf?_text front.root_eq (front.name.below m.name) m.alias?
      simpa [QualifiedName.text_below, ImportedName.text, htight] using h
    · rename_i hloose
      simp only [List.map_map]
      refine List.map_congr_left fun m _ => ?_
      have h := importOf?_loose front.root_eq front.name m.name hloose m.alias?
      simpa [ImportedName.text] using h

end Body

/-- The members between the braces of a group are found. -/
theorem groupClauses_text (front : List Char) (inner closing : Gap) (members : Listed Member) :
    groupClauses front (inner.text ++ (members.text Member.text ++ closing.text)) =
      (classMembers members).map fun m => front ++ '\\' :: (m.name.text ++ aliasText m.alias?) := by
  have hitems := members.members_text Member.solid (fun m => m.unmarked.not_mem List.mem_cons_self)
    inner closing
  have hkept : (members.items.map Member.text).filter (fun m => !importsNoClass m) =
      (classMembers members).map Member.text := by
    rw [List.filter_map, classMembers]
    congr 1
    refine List.filter_congr fun m _ => ?_
    simp [m.importsNoClass_text, Option.not_isSome]
  unfold groupClauses
  have hsplit : (fun m : List Char => !m.isEmpty && !importsNoClass m) =
      fun m => (!importsNoClass m) && !m.isEmpty := by
    funext m
    rw [Bool.and_comm]
  rw [hsplit, ← List.filter_filter, hitems, hkept, List.map_map]
  refine List.map_congr_left fun m hm => ?_
  have hclass : m.announced? = none := by
    simpa [classMembers] using (List.mem_filter.mp hm).2
  simp [Member.text, hclass, announcedText]

namespace UseDeclaration

variable (declaration : UseDeclaration)

/-- What stands between the keyword and the end of a declaration. -/
def content : List Char := announcedText declaration.announced? ++ declaration.body.text

theorem content_solid : Solid declaration.content := solid_announced declaration.body.solid _

theorem no_semicolon : ';' ∉ declaration.content := by
  have hannounced : ';' ∉ announcedText declaration.announced? :=
    (announcedText_unmarked _).not_mem (by simp)
  simp [content, hannounced, declaration.body.no_semicolon]

/-- What stands behind the content, up to the blanks at the end. -/
def marks : List Char := if declaration.semicolon then declaration.ending.text ++ [';'] else []

theorem endText_eq : ∃ g, Blanks g ∧ declaration.endText = declaration.marks ++ g := by
  cases h : declaration.semicolon with
  | true => exact ⟨declaration.after.text, declaration.after.blanks, by simp [endText, marks, h]⟩
  | false =>
    refine ⟨declaration.ending.text ++ declaration.after.text, ?_, by simp [endText, marks, h]⟩
    intro c hc
    rcases List.mem_append.mp hc with hc | hc
    · exact declaration.ending.blanks c hc
    · exact declaration.after.blanks c hc

theorem solid_marks : Solid (declaration.content ++ declaration.marks) := by
  have hsemicolon : Solid [';'] := solid_mark (by decide)
  cases h : declaration.semicolon with
  | true => simpa [marks, h] using declaration.content_solid.append hsemicolon declaration.ending.text
  | false => simpa [marks, h] using declaration.content_solid

/-- Without its end and the blanks before it, only the content is left. -/
theorem trimBlanks_marks :
    trimBlanks (dropEndWhile (· == ';') (declaration.content ++ declaration.marks)) =
      declaration.content := by
  have hlast : ∀ g : Gap, ∀ c, (declaration.content ++ g.text).getLast? = some c → (c == ';') = false := by
    intro g c hc
    have hgap : ';' ∉ g.text := g.unmarked.not_mem (by simp)
    have hmem := List.mem_of_getLast? hc
    simp only [beq_eq_false_iff_ne]
    rintro rfl
    simp [declaration.no_semicolon, hgap] at hmem
  cases h : declaration.semicolon with
  | true =>
    rw [marks, h, if_pos rfl, ← List.append_assoc, dropEndWhile_append (by simp) (hlast _)]
    exact trimBlanks_gaps blanks_nil declaration.ending.blanks declaration.content_solid
  | false =>
    have hnone := dropEndWhile_append (g := []) (p := (· == ';')) (by simp) (hlast ⟨[], blanks_nil⟩)
    simp only [List.append_nil] at hnone
    simp [marks, h, hnone, trimBlanks_solid declaration.content_solid]

/-- The content is what is left of a declaration without its keyword, its end and the blanks. -/
theorem trimmed_text :
    let whole := trimBlanks declaration.text.toList
    trimBlanks (dropEndWhile (· == ';') (trimBlanks ((afterKeyword? "use" whole).getD whole))) =
      declaration.content := by
  have hkeyword : Solid declaration.keyword.text :=
    solid_of_chars (ne_nil_of_spells declaration.keyword.spells (by decide))
      (chars_of_spells declaration.keyword.spells (by decide))
  have hsolid := declaration.solid_marks
  have hwhole : trimBlanks declaration.text.toList =
      declaration.keyword.text ++ (declaration.space.text ++ (declaration.content ++ declaration.marks)) := by
    obtain ⟨g, hg, hend⟩ := declaration.endText_eq
    have h := trimBlanks_gaps declaration.before.blanks hg
      (hkeyword.append hsolid declaration.space.text)
    rw [← h, text, hend]
    simp [content]
  have hbegins : (declaration.content ++ declaration.marks).dropWhile isBlank =
      declaration.content ++ declaration.marks := by
    simpa using dropWhile_solid blanks_nil hsolid.begins
  dsimp only
  rw [hwhole, afterKeyword?_append declaration.keyword.spells declaration.space.blanks
    declaration.space.ne_nil, Option.getD_some, hbegins, trimBlanks_solid hsolid,
    declaration.trimBlanks_marks]

end UseDeclaration

/-- A list of names imports classes, and is cut into its clauses. -/
theorem useClauses_names (clauses : Listed Clause) :
    importsNoClass (clauses.text Clause.text) = false ∧ '\x7b' ∉ clauses.text Clause.text ∧
      ((pieces ',' (clauses.text Clause.text)).map trimBlanks).filter (!·.isEmpty) =
        clauses.items.map Clause.text := by
  refine ⟨?_, clauses.not_mem_text Clause.unmarked (by simp), ?_⟩
  · have hstops := (Listed.stops_rest Clause.text clauses.rest clauses.trailing?).alias
      clauses.first.alias?
    have h := importsNoClass_name clauses.first.imported hstops
    simpa [Listed.text, Clause.text] using h
  · have h := clauses.members_text Clause.solid (fun c => c.unmarked.not_mem List.mem_cons_self)
      ⟨[], blanks_nil⟩ ⟨[], blanks_nil⟩
    simpa using h

/-- The front of a group is what stands before its backslash, with the gap between them. -/
theorem dropEndWhile_front (front : ImportedName) (before after : Gap) :
    dropEndWhile (· == '\\') (trimBlanks (front.text ++ (before.text ++ '\\' :: after.text))) =
      front.text ++ before.text := by
  have hback : Solid ['\\'] := solid_mark (by decide)
  have htrim : trimBlanks (front.text ++ (before.text ++ '\\' :: after.text)) =
      (front.text ++ before.text) ++ ['\\'] := by
    have h := trimBlanks_gaps blanks_nil after.blanks (front.solid.append hback before.text)
    simpa using h
  rw [htrim]
  refine dropEndWhile_append (by simp) fun c hc => ?_
  simp only [beq_eq_false_iff_ne]
  rintro rfl
  rcases List.eq_nil_or_concat before.text with hnil | ⟨blanks, blank, hblank⟩
  · obtain ⟨last, hlast, hsegment⟩ := front.name.getLast?_text
    have heq : last = '\\' := by
      simpa [hnil, ImportedName.text, List.getLast?_append, hlast] using hc
    exact ne_of_isSegmentChar hsegment (heq ▸ List.mem_cons_self)
  · have heq : blank = '\\' := by simpa [hblank, ← List.append_assoc] using hc
    have hmem := before.blanks blank (by simp [hblank])
    rw [heq] at hmem
    revert hmem
    decide

/-- A text is read as the clauses of its declaration. -/
theorem UseDeclaration.useClauses?_text (declaration : UseDeclaration) :
    useClauses? declaration.text =
      some (if declaration.announced?.isSome then [] else declaration.body.clauses) := by
  have hcontent := declaration.trimmed_text
  unfold useClauses?
  dsimp only at hcontent ⊢
  rw [hcontent, content]
  cases declaration.announced? with
  | some announced =>
    have h := importsNoClass_announced announced declaration.body.text
    rw [announcedText, List.append_assoc, h]
    rfl
  | none =>
    rw [announcedText, List.nil_append]
    cases declaration.body with
    | names clauses =>
      obtain ⟨hclass, hbrace, hitems⟩ := useClauses_names clauses
      simp [Body.text, Body.clauses, hclass, cutAt?_eq_none hbrace, hitems]
    | group front before after inner members closing =>
      have hgap : ∀ g : Gap, '\x7b' ∉ g.text := fun g => g.unmarked.not_mem (by simp)
      have hfront : '\x7b' ∉ front.text := front.unmarked.not_mem (by simp)
      have hback : isSegmentChar '\\' = false := by decide
      have hclass := importsNoClass_name front (stops_gap before hback (after.text ++
        '\x7b' :: (inner.text ++ (members.text Member.text ++ (closing.text ++ ['\x7d'])))))
      have hopen := cutAt?_append '\x7b'
        (inner.text ++ (members.text Member.text ++ (closing.text ++ ['\x7d'])))
        (front.text ++ (before.text ++ '\\' :: after.text)) (by simp [hgap, hfront])
      have hclose : cutAtLast? '\x7d'
          ((inner.text ++ (members.text Member.text ++ closing.text)) ++ ['\x7d']) =
          some (inner.text ++ (members.text Member.text ++ closing.text), []) :=
        cutAtLast?_append (by simp)
      simp only [List.append_assoc, List.cons_append] at hopen hclose
      simp [Body.text, Body.clauses, hclass, hopen, hclose, dropEndWhile_front, groupClauses_text]

/-! ## Scopes -/

theorem foldl_addClause : ∀ {clauses : List (List Char)} {entries : List (String × String)},
    clauses.map importOf? = entries.map some → ∀ scope : NameScope,
    clauses.foldl NameScope.addClause scope =
      { scope with imports := entries.reverse ++ scope.imports }
  | [], [], _, scope => rfl
  | [], _ :: _, h, _ => by cases h
  | _ :: _, [], h, _ => by cases h
  | clause :: clauses, entry :: entries, h, scope => by
    obtain ⟨hentry, hrest⟩ : importOf? clause = some entry ∧ clauses.map importOf? = entries.map some := by
      simpa using h
    simp [NameScope.addClause, hentry, foldl_addClause hrest]

/-- Reading a declaration adds what is read from it, the latest import in front. -/
theorem addUse?_text (scope : NameScope) (declaration : UseDeclaration) :
    scope.addUse? declaration.text = some
      { scope with imports := (declaration.read.map Import.entry).reverse ++ scope.imports } := by
  rw [NameScope.addUse?, declaration.useClauses?_text, Option.map_some, Option.some.injEq]
  refine foldl_addClause ?_ scope
  unfold UseDeclaration.read
  cases declaration.announced?.isSome with
  | true => rfl
  | false => exact declaration.body.importOf?_clauses

theorem UseDeclaration.read_of_tight {declaration : UseDeclaration} (h : declaration.Tight) :
    declaration.read = declaration.imports := by
  unfold read imports
  cases hannounced : declaration.announced? with
  | some announced => rfl
  | none =>
    have htight := h hannounced
    cases hbody : declaration.body with
    | names clauses => rfl
    | group front before after inner members closing =>
      rw [hbody] at htight
      rcases htight with hbefore | hmembers
      · simp [Body.read, hbefore]
      · simp [Body.read, Body.imports, hmembers]

/-- A gap before the backslash of a group with classes is seen in what is read. -/
theorem UseDeclaration.tight_of_read {declaration : UseDeclaration}
    (h : declaration.read.map Import.entry = declaration.imports.map Import.entry) :
    declaration.Tight := by
  intro hannounced
  cases hbody : declaration.body with
  | names clauses => trivial
  | group front before after inner members closing =>
    by_contra hloose
    obtain ⟨hbefore, hmembers⟩ := not_or.mp hloose
    obtain ⟨m, rest, hm⟩ := List.exists_cons_of_ne_nil hmembers
    have hfull : front.name.text = (front.name.below m.name).text := by
      have hentries := h
      simp only [read, imports, hannounced, hbody, Body.read, Body.imports, hbefore, hm,
        Option.isSome_none, if_false, Bool.false_eq_true, List.map_cons, List.cons.injEq] at hentries
      have hname := congrArg Prod.snd hentries.1
      exact String.ofList_injective hname
    have hlength := congrArg List.length hfull
    rw [QualifiedName.text_below] at hlength
    simp at hlength

/-- A declaration adds its imports, unless a gap keeps them from their name. -/
theorem addUse?_eq_imports_iff (scope : NameScope) (declaration : UseDeclaration) :
    scope.addUse? declaration.text = some
      { scope with imports := (declaration.imports.map Import.entry).reverse ++ scope.imports } ↔
      declaration.Tight := by
  rw [addUse?_text]
  constructor
  · intro h
    refine UseDeclaration.tight_of_read ?_
    simpa using h
  · intro h
    rw [UseDeclaration.read_of_tight h]

/-! ## One by one -/

/-- A single blank. -/
def oneSpace : Space := { text := [' '], blanks := by simp [Blanks]; decide, ne_nil := by simp }

def useKeyword : Keyword "use" := ⟨['u', 's', 'e'], by decide⟩

/-- The declaration of a single import: the name from the root, and the alias if there is one. -/
def Import.declaration (i : Import) : UseDeclaration where
  before := ⟨[], blanks_nil⟩
  keyword := useKeyword
  space := oneSpace
  announced? := none
  body := .names
    { first :=
        { imported := ⟨true, i.name, fun h => by cases h⟩
          alias? := i.alias?.map fun short => ⟨oneSpace, ⟨['a', 's'], by decide⟩, oneSpace, short⟩ }
      rest := []
      trailing? := none }
  ending := ⟨[], blanks_nil⟩
  semicolon := true
  after := ⟨[], blanks_nil⟩

theorem Import.imports_declaration (i : Import) : i.declaration.imports = [i] := by
  obtain ⟨name, alias?⟩ := i
  cases alias? <;> rfl

theorem Import.declaration_tight (i : Import) : i.declaration.Tight := fun _ => trivial

theorem addUse?_declaration (scope : NameScope) (i : Import) :
    scope.addUse? i.declaration.text = some { scope with imports := i.entry :: scope.imports } := by
  rw [(addUse?_eq_imports_iff scope i.declaration).mpr i.declaration_tight, i.imports_declaration]
  rfl

/-- A declaration does what its members do one by one. -/
theorem addUse?_one_by_one (scope : NameScope) {declaration : UseDeclaration}
    (h : declaration.Tight) :
    scope.addUse? declaration.text =
      declaration.imports.foldlM (fun scope i => scope.addUse? i.declaration.text) scope := by
  rw [(addUse?_eq_imports_iff scope declaration).mpr h]
  generalize declaration.imports = imports
  induction imports generalizing scope with
  | nil => rfl
  | cons i rest ih =>
    rw [List.foldlM_cons, addUse?_declaration]
    simp [← ih]

end UseSyntax

end FacadeStubs
