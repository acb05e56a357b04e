import FacadeStubs.Proofs.Names.NotedGroups

/-!
# Comments in import declarations

A declaration is read as bare text, its comments with it. What is left of the text without its keyword
and its end is cut at its first opening and last closing brace and at its commas, wherever these stand.

* `crossed_useContent`, `entries?_eq_none_iff`: a text cannot be read if its braces are crossed;
* `Commented.Declaration.useContent_text`: what is left of a declaration;
* `Commented.Declaration.importsNoClass_iff`: when a declaration is seen to be announced;
* `comments_in_imports`: when comments keep a declaration from being read, and when they change what is
  read from it.

Whether a declaration can be read is said for all comments. What is read from it is compared for comments
without commas and braces (`Quiet`); a comment with these may cut the text into other clauses, and what the
imports of these are is left open.
-/
namespace FacadeStubs

namespace UseSyntax

/-! ## Crossed braces -/

/-- A closing brace stands before the first opening brace, and none behind it. -/
def Crossed (text : List Char) : Prop :=
  match cutAt? '\x7b' text with
  | some (front, rest) => '\x7d' ∈ front ∧ '\x7d' ∉ rest
  | none => False

theorem crossed_append {front last : List Char} (hfront : ∀ c ∈ ['\x7b', '\x7d'], c ∉ front)
    (hlast : ∀ c ∈ ['\x7b', '\x7d'], c ∉ last) (text : List Char) :
    Crossed (front ++ (text ++ last)) ↔ Crossed text := by
  simp only [List.forall_mem_cons] at hfront hlast
  unfold Crossed
  rw [cutAt?_append_left _ hfront.1, cutAt?_append_right hlast.1]
  cases cutAt? '\x7b' text with
  | none => rfl
  | some parts => simp [hfront.2.1, hlast.2.1]

/-- Braces that are paired somewhere are not crossed. -/
theorem not_crossed (front inner last : List Char) :
    ¬Crossed (front ++ '\x7b' :: (inner ++ '\x7d' :: last)) := by
  obtain ⟨before, rest, hcut, hmem⟩ := cutAt?_before '\x7b' (inner ++ '\x7d' :: last) front
  rw [Crossed, hcut]
  exact fun h => h.2 (hmem _ (by simp))

theorem no_brace_nil : ∀ c ∈ ['\x7b', '\x7d'], c ∉ ([] : List Char) := by simp

theorem no_brace_of_blanks {g : List Char} (hg : Blanks g) : ∀ c ∈ ['\x7b', '\x7d'], c ∉ g :=
  fun _ hc => (Gap.mk g hg).unmarked.not_mem (List.mem_cons_of_mem _ (List.mem_cons_of_mem _ hc))

theorem crossed_trimBlanks (text : List Char) : Crossed (trimBlanks text) ↔ Crossed text := by
  obtain ⟨g, g', hg, hg', htext⟩ := exists_trimBlanks text
  have h := crossed_append (no_brace_of_blanks hg) (no_brace_of_blanks hg') (trimBlanks text)
  rw [← htext] at h
  exact h.symm

theorem crossed_dropEndWhile (text : List Char) :
    Crossed (dropEndWhile (· == ';') text) ↔ Crossed text := by
  obtain ⟨marks, hmarks, htext⟩ := exists_dropEndWhile (· == ';') text
  have hbraces : ∀ c ∈ ['\x7b', '\x7d'], (c == ';') = false := by simp
  have hlast : ∀ c ∈ ['\x7b', '\x7d'], c ∉ marks := by
    intro c hc hmem
    have hbrace := hbraces c hc
    rw [hmarks c hmem] at hbrace
    cases hbrace
  have h := crossed_append no_brace_nil hlast (dropEndWhile (· == ';') text)
  rw [List.nil_append, ← htext] at h
  exact h.symm

theorem crossed_afterKeyword (text : List Char) :
    Crossed ((afterKeyword? "use" text).getD text) ↔ Crossed text := by
  cases hkeyword : afterKeyword? "use" text with
  | none => rfl
  | some rest =>
    obtain ⟨front, rfl, hfront⟩ := append_of_afterKeyword? hkeyword
    have hbraces : ∀ c ∈ ['\x7b', '\x7d'], c.toLower ∉ "use".toList ∧ isBlank c = false := by
      simp only [List.forall_mem_cons, List.not_mem_nil, false_implies, implies_true, and_true]
      decide
    have hnone : ∀ c ∈ ['\x7b', '\x7d'], c ∉ front := by
      intro c hc hmem
      rcases hfront c hmem with hletter | hblank
      · exact (hbraces c hc).1 hletter
      · simp [(hbraces c hc).2] at hblank
    have h := crossed_append hnone no_brace_nil rest
    rw [List.append_nil] at h
    exact h.symm

/-- Only the keyword, blanks and semicolons are dropped from a text. -/
theorem crossed_useContent (text : String) : Crossed (useContent text) ↔ Crossed text.toList := by
  unfold useContent
  rw [crossed_trimBlanks, crossed_dropEndWhile, crossed_trimBlanks, crossed_afterKeyword,
    crossed_trimBlanks]

/-! ## What is read from a text -/

/-- What is read from the content of a text that imports classes. -/
def contentEntries? (content : List Char) : Option (List (String × String)) :=
  match cutAt? '\x7b' content with
  | some (front, afterOpen) =>
    match cutAtLast? '\x7d' afterOpen with
    | some (members, _) => some ((pieces ',' members).flatMap (memberEntries (Commented.frontOf front)))
    | none => if front.contains '\x7d' then none else some (listEntries content)
  | none => some (listEntries content)

theorem entries?_eq (text : String) : entries? text =
    if importsNoClass (useContent text) then some [] else contentEntries? (useContent text) := by
  unfold entries? useClauses? useContent contentEntries? Commented.frontOf
  dsimp only
  generalize trimBlanks (dropEndWhile (· == ';') (trimBlanks
    ((afterKeyword? "use" (trimBlanks text.toList)).getD (trimBlanks text.toList)))) = content
  cases importsNoClass content with
  | true => rfl
  | false =>
    simp only [if_false, Bool.false_eq_true]
    cases cutAt? '\x7b' content with
    | none => simp [filterMap_list]
    | some parts =>
      dsimp only
      cases cutAtLast? '\x7d' parts.2 with
      | some found => simp [filterMap_groupClauses]
      | none => cases parts.1.contains '\x7d' <;> simp [filterMap_list]

theorem contentEntries?_eq_none_iff (content : List Char) :
    contentEntries? content = none ↔ Crossed content := by
  unfold contentEntries? Crossed
  cases cutAt? '\x7b' content with
  | none => simp
  | some parts =>
    dsimp only
    by_cases hclose : '\x7d' ∈ parts.2
    · obtain ⟨members, after, hcut⟩ := exists_cutAtLast?_of_mem hclose
      simp [hcut, hclose]
    · rw [cutAtLast?_eq_none hclose]
      by_cases hfront : '\x7d' ∈ parts.1 <;> simp [hfront, hclose]

theorem entries?_eq_none_iff (text : String) :
    entries? text = none ↔ importsNoClass (useContent text) = false ∧ Crossed text.toList := by
  rw [entries?_eq, ← crossed_useContent]
  cases importsNoClass (useContent text) with
  | true => simp
  | false => simpa using contentEntries?_eq_none_iff (useContent text)

/-! ## What is left of a declaration -/

namespace Commented

/-- A text that ends with neither a blank nor a semicolon. -/
def Firm (text : List Char) : Prop :=
  ∃ c, text.getLast? = some c ∧ isBlank c = false ∧ (c == ';') = false

theorem Firm.append {text : List Char} (h : Firm text) (front : List Char) : Firm (front ++ text) := by
  obtain ⟨c, hc, hfirm⟩ := h
  exact ⟨c, by rw [List.getLast?_append, hc, Option.some_or], hfirm⟩

theorem Segment.firm (segment : Segment) : Firm segment.text := by
  have hchar := segment.chars _ (List.getLast_mem segment.ne_nil)
  refine ⟨_, List.getLast?_eq_some_getLast segment.ne_nil, isBlank_of_isSegmentChar hchar, ?_⟩
  simp only [beq_eq_false_iff_ne]
  intro h
  exact ne_of_isSegmentChar hchar (by simp [h])

theorem firm_clause (name : QualifiedName) : ∀ alias? : Option Alias, Firm (name.text ++ aliasText alias?)
  | none => by
    rw [aliasText, List.append_nil]
    rcases name.text_eq_last with h | ⟨front, h⟩
    · exact h ▸ Segment.firm name.last
    · rw [h, List.append_cons]
      exact (Segment.firm name.last).append _
  | some a => by
    have h := (Segment.firm a.short).append
      (name.text ++ (a.before.text ++ (a.keyword.text ++ a.after.text)))
    simpa [aliasText, Alias.text] using h

theorem Listed.firm {α : Type} {write : α → List Char} (hitem : ∀ a, Firm (write a)) (list : Listed α) :
    Firm (list.text write) := by
  obtain ⟨first, rest, trailing?⟩ := list
  cases trailing? with
  | some before =>
    have hcomma : Firm [','] := ⟨',', rfl, by decide⟩
    simpa [text, trailingText] using hcomma.append (write first ++ (restText write rest ++ before.text))
  | none =>
    rcases List.eq_nil_or_concat rest with rfl | ⟨front, ⟨before, after, item⟩, rfl⟩
    · simpa [text, restText, trailingText] using hitem first
    · have h := (hitem item).append
        (write first ++ (restText write front ++ (before.text ++ ',' :: after.text)))
      simpa [text, restText, trailingText] using h

/-- A body begins with a name. -/
theorem Body.text_eq : ∀ body : Body, ∃ (n : ImportedName) (rest : List Char), body.text = n.text ++ rest
  | names clauses => ⟨clauses.first.imported, _, by rw [text, Listed.text, Clause.text, List.append_assoc]⟩
  | group front _ _ _ _ _ _ => ⟨front, _, rfl⟩

theorem Body.firm : ∀ body : Body, Firm body.text
  | names clauses => clauses.firm fun clause => by
      rw [Clause.text, ImportedName.text, List.append_assoc]
      exact (firm_clause clause.imported.name clause.alias?).append _
  | group front _ before after inner members closing => by
    have hbrace : Firm ['\x7d'] := ⟨'\x7d', rfl, by decide⟩
    have h := hbrace.append (front.text ++ (before.text ++ '\\' :: (after.text ++
      '\x7b' :: (inner.text ++ (members.text Member.text ++ closing.text)))))
    simpa [text] using h

namespace Declaration

variable (d : Declaration)

/-- What is left in front of a declaration without its keyword. -/
def left : List Char :=
  if d.space.lead.text = [] then d.keyword.text ++ d.space.noted else d.space.noted

/-- What is left behind the body of a declaration. -/
def tail : List Char :=
  dropEndWhile isBlank (dropEndWhile (· == ';') (dropEndWhile isBlank d.endText))

/-- What the keyword is followed by. -/
def core : List Char := announcedText d.announced? ++ d.body.text

/-- A comment behind the keyword is left in front, with the keyword if it touches it. -/
theorem left_noted (h : ¬d.space.Clear) :
    ∃ word rest, d.left = word ++ rest ∧ (∀ c ∈ word, isBlank c = false) ∧ Noted rest := by
  have hrest := d.space.noted_of_not_clear h
  unfold left
  split
  · refine ⟨d.keyword.text, d.space.noted, rfl, ?_, hrest⟩
    exact fun c hc => isBlank_of_isSegmentChar (chars_of_spells d.keyword.spells (by decide) c hc)
  · exact ⟨[], d.space.noted, rfl, by simp, hrest⟩

theorem left_clear (h : d.space.Clear) : d.left = [] := by
  rw [left, if_neg (d.space.apart_of_clear h), h.noted_eq]

theorem left_leads : Leads d.left d.space.toFiller := by
  refine ⟨fun h => d.left_clear h ▸ blanks_nil, fun h => ?_⟩
  obtain ⟨word, rest, hleft, hword, hrest⟩ := d.left_noted h
  exact ⟨[], word, rest, hleft, blanks_nil, hword, hrest⟩

theorem core_begins : ∃ c, d.core.head? = some c ∧ isBlank c = false := by
  unfold core
  cases d.announced? with
  | none =>
    obtain ⟨n, rest, hbody⟩ := d.body.text_eq
    obtain ⟨c, hc, hblank⟩ := n.solid.begins
    refine ⟨c, ?_, hblank⟩
    rw [announcedText, List.nil_append, hbody, List.head?_append, hc, Option.some_or]
  | some a =>
    obtain ⟨c, rest, hword⟩ := List.exists_cons_of_ne_nil a.plain.ne_nil
    have htext : a.text = c :: rest := hword
    refine ⟨c, ?_, isBlank_of_isSegmentChar (a.chars c (htext ▸ List.mem_cons_self))⟩
    rw [announcedText, htext]
    rfl

theorem core_firm : Firm d.core := d.body.firm.append _

/-- What is left in front begins without a blank, with the core behind it. -/
theorem left_begins (more : List Char) :
    ∃ c, (d.left ++ (d.core ++ more)).head? = some c ∧ isBlank c = false := by
  by_cases hclear : d.space.Clear
  · obtain ⟨c, hc, hblank⟩ := d.core_begins
    refine ⟨c, ?_, hblank⟩
    rw [d.left_clear hclear, List.nil_append, List.head?_append, hc, Option.some_or]
  · obtain ⟨word, _, hleft, hword, c, rest, rfl, hc⟩ := d.left_noted hclear
    rw [hleft]
    cases word with
    | nil => exact ⟨c, rfl, isBlank_of_isNote hc⟩
    | cons first word => exact ⟨first, rfl, hword first List.mem_cons_self⟩

theorem solid_left : Solid (d.left ++ d.core) := by
  obtain ⟨last, hlast, hblank, -⟩ := d.core_firm.append d.left
  exact ⟨by simpa using d.left_begins [], last, hlast, hblank⟩

/-- The keyword is dropped if a blank follows it. -/
theorem afterKeyword?_getD (more : List Char) :
    let whole := d.keyword.text ++ (d.space.text ++ (d.core ++ more))
    (afterKeyword? "use" whole).getD whole = d.left ++ (d.core ++ more) := by
  have hbegins := d.left_begins more
  dsimp only
  rw [d.space.text_eq, List.append_assoc]
  unfold left at hbegins ⊢
  by_cases hapart : d.space.Apart
  · rw [if_neg hapart] at hbegins ⊢
    rw [afterKeyword?_append d.keyword.spells d.space.lead.blanks hapart, Option.getD_some]
    simpa using dropWhile_solid blanks_nil hbegins
  · have hnoted := d.space.noted_of_not_clear fun hclear => hapart (d.space.apart_of_clear hclear)
    have hnone : afterKeyword? "use" (d.keyword.text ++ (d.space.noted ++ (d.core ++ more))) = none :=
      afterKeyword?_spoiled (by decide) (by decide)
        (fun c hc => isBlank_of_isSegmentChar (chars_of_spells d.keyword.spells (by decide) c hc))
        (hnoted.append (d.core ++ more))
    rw [if_pos (not_not.mp hapart), not_not.mp hapart, List.nil_append, hnone, Option.getD_none,
      List.append_assoc]

/-- Without its keyword and its end, what is left of a declaration is its core between two rests. -/
theorem useContent_text : useContent d.text = d.left ++ (d.core ++ d.tail) := by
  have hkeyword : Solid d.keyword.text := solid_of_chars
    (ne_nil_of_spells d.keyword.spells (by decide)) (chars_of_spells d.keyword.spells (by decide))
  obtain ⟨last, hlast, hblank, hmark⟩ := d.core_firm
  have hcore : Solid d.core := ⟨d.core_begins, last, hlast, hblank⟩
  have hwhole : trimBlanks d.text.toList =
      d.keyword.text ++ (d.space.text ++ (d.core ++ dropEndWhile isBlank d.endText)) := by
    have htext : d.text.toList = [] ++ ((d.keyword.text ++ (d.space.text ++ d.core)) ++ d.endText) := by
      simp [text, core]
    rw [htext, trimBlanks_behind blanks_nil (hkeyword.append hcore d.space.text)]
    simp
  have htrim : ∀ more, trimBlanks (d.left ++ (d.core ++ more)) =
      (d.left ++ d.core) ++ dropEndWhile isBlank more := by
    intro more
    rw [← List.append_assoc, ← List.nil_append (_ ++ _)]
    exact trimBlanks_behind blanks_nil d.solid_left
  have hend : ∃ c, (d.left ++ d.core).getLast? = some c ∧ (c == ';') = false :=
    ⟨last, by rw [List.getLast?_append, hlast, Option.some_or], hmark⟩
  unfold useContent
  dsimp only
  rw [hwhole, d.afterKeyword?_getD, htrim, dropEndWhile_idem, dropEndWhile_append_of_last hend,
    List.append_assoc, htrim, tail, List.append_assoc]

theorem tail_trails : Trails d.tail d.ending := by
  unfold tail endText
  by_cases hclear : d.ending.Clear
  · refine ⟨[], [], ?_, blanks_nil, fun _ => rfl, fun h => absurd hclear h⟩
    rw [hclear.text_eq]
    have hlead := dropEndWhile_eq_nil d.ending.lead.blanks
    cases d.semicolon with
    | false =>
      rw [if_neg (by simp), List.append_nil, hlead]
      rfl
    | true =>
      have hlast : ∀ c, d.ending.lead.text.getLast? = some c → (c == ';') = false := by
        intro c hc
        have hmark : ';' ∉ d.ending.lead.text := d.ending.lead.unmarked.not_mem (by simp)
        simp only [beq_eq_false_iff_ne]
        rintro rfl
        exact hmark (List.mem_of_getLast? hc)
      have hblank : dropEndWhile isBlank (d.ending.lead.text ++ [';']) = d.ending.lead.text ++ [';'] :=
        dropEndWhile_stop _ (by decide) []
      have hdrop : dropEndWhile (· == ';') (d.ending.lead.text ++ [';']) = d.ending.lead.text :=
        dropEndWhile_append (by simp) hlast
      rw [if_pos rfl, hblank, hdrop, hlead, List.append_nil]
  · have hmark : ∀ c, isNote c = true → (c == ';') = false := by
      intro c hc
      simp only [isNote, Bool.or_eq_true, beq_iff_eq] at hc
      rcases hc with rfl | rfl <;> decide
    have hnoted := (d.ending.noted_of_not_clear hclear).append (if d.semicolon then [';'] else [])
    obtain ⟨rest, hrest, hnoted⟩ := Noted.dropEndWhile isBlank_note hnoted d.ending.lead.text
    obtain ⟨rest', hrest', hnoted⟩ := Noted.dropEndWhile hmark hnoted d.ending.lead.text
    obtain ⟨rest'', hrest'', hnoted⟩ := Noted.dropEndWhile isBlank_note hnoted d.ending.lead.text
    refine ⟨d.ending.lead.text, rest'', ?_, d.ending.lead.blanks, fun h => absurd h hclear,
      fun _ => ⟨hnoted, Iff.rfl⟩⟩
    rw [d.ending.text_eq, List.append_assoc, hrest, hrest', hrest'']

theorem mem_tail {c : Char} (h : c ∈ d.tail) : c ∈ d.ending.text ∨ c = ';' := by
  have hfront : ∀ {p : Char → Bool} {t : List Char}, c ∈ dropEndWhile p t → c ∈ t := by
    intro p t hc
    obtain ⟨last, -, ht⟩ := exists_dropEndWhile p t
    rw [ht]
    exact List.mem_append_left _ hc
  rcases List.mem_append.mp (hfront (hfront (hfront h))) with hend | hend
  · exact Or.inl hend
  · split at hend
    · exact Or.inr (List.mem_singleton.mp hend)
    · cases hend

theorem mem_left {c : Char} (h : c ∈ d.left) : c ∈ d.keyword.text ∨ c ∈ d.space.text := by
  have hnoted : c ∈ d.space.noted → c ∈ d.space.text := fun hc => by
    rw [d.space.text_eq]
    exact List.mem_append_right _ hc
  unfold left at h
  split at h
  · exact (List.mem_append.mp h).imp_right hnoted
  · exact Or.inr (hnoted h)

/-! ## Announced declarations -/

theorem Body.ends_text : ∀ body : Body, ∀ {tail : List Char}, Ends tail →
    importsNoClass (body.text ++ tail) = false
  | .names clauses, tail, htail => by
    have hrest : Ends (Listed.restText Clause.text clauses.rest ++
        (Listed.trailingText clauses.trailing? ++ tail)) := by
      have hcomma : ∀ more, Ends (',' :: more) := fun more => Or.inl (by rintro _ ⟨⟩; decide)
      cases clauses.rest with
      | cons entry rest =>
        simpa [Listed.restText] using (hcomma _).filler entry.1
      | nil =>
        cases clauses.trailing? with
        | none => exact htail
        | some before => simpa [Listed.restText, Listed.trailingText] using (hcomma tail).filler before
    have h := importsNoClass_ends clauses.first.imported (ends_alias hrest clauses.first.alias?)
    simpa [Body.text, Listed.text, Clause.text] using h
  | .group front _ before after inner members closing, tail, _ => by
    have hback : Ends ('\\' :: (after.text ++ ('\x7b' :: (inner.text ++ (members.text Member.text ++
        (closing.text ++ '\x7d' :: tail)))))) := Or.inl (by rintro _ ⟨⟩; decide)
    have h := importsNoClass_ends front (hback.filler before)
    simpa [Body.text] using h

/-- A declaration is taken for one of functions or constants if it is seen to be announced. -/
theorem importsNoClass_iff : importsNoClass (useContent d.text) = true ↔ d.Announces := by
  rw [d.useContent_text, core, Announces]
  by_cases hclear : d.space.Clear
  · rw [d.left_clear hclear, List.nil_append]
    cases d.announced? with
    | none => simpa [announcedText] using Body.ends_text d.body d.tail_trails.ends
    | some a =>
      have h := importsNoClass_announced_iff a (d.body.text ++ d.tail)
      simpa [announcedText, Announcement.Seen, hclear] using h
  · obtain ⟨word, rest, hleft, hword, hrest⟩ := d.left_noted hclear
    have h := importsNoClass_spoiled hword
      (hrest.append (announcedText d.announced? ++ d.body.text ++ d.tail))
    rw [hleft, List.append_assoc, h]
    simp [Announcement.Seen, hclear]

/-! ## Without the comments -/

theorem entries?_plain : entries? d.plain.text = some (d.plain.read.map Import.entry) := by
  rw [entries?, d.plain.useClauses?_text, Option.map_some, UseDeclaration.read]
  cases d.plain.announced?.isSome with
  | true => rfl
  | false =>
    have h := congrArg (List.filterMap id) d.plain.body.importOf?_clauses
    simp only [List.filterMap_map, Function.id_comp] at h
    simp [h]

theorem read_plain_announced {a : Announcement} (h : d.announced? = some a) : d.plain.read = [] := by
  simp [UseDeclaration.read, plain, h]

theorem read_plain_names {clauses : Listed Clause} (hnone : d.announced? = none)
    (h : d.body = .names clauses) : d.plain.read.map Import.entry =
      (clauses.first :: clauses.rest.map (·.2.2)).map Clause.entry := by
  simp [UseDeclaration.read, plain, hnone, h, Body.plain, UseSyntax.Body.read, UseSyntax.Body.imports,
    Listed.plain, UseSyntax.Listed.items, Clause.plain, Clause.entry, Alias.plain, Function.comp_def]

theorem read_plain_group {front : ImportedName} {legible : Legible front.name.text}
    {before after inner closing : Filler} {members : Listed Member} (hnone : d.announced? = none)
    (h : d.body = .group front legible before after inner members closing) :
    d.plain.read.map Import.entry =
      (members.first :: members.rest.map (·.2.2)).flatMap (Member.expected front before) := by
  have hitems : (members.plain Member.plain).items =
      (members.first :: members.rest.map (·.2.2)).map Member.plain := by
    simp [Listed.plain, UseSyntax.Listed.items]
  have hread : d.plain.read.map Import.entry =
      ((members.first :: members.rest.map (·.2.2)).filter (·.announced?.isNone)).map
        (Member.entry front before) := by
    have hnone' : d.plain.announced?.isSome = false := by simp [plain, hnone]
    have hbody : d.plain.body = .group front before.gap after.gap inner.gap
        (members.plain Member.plain) closing.gap := by simp [plain, h, Body.plain]
    rw [UseDeclaration.read, hnone', if_neg (by simp), hbody, UseSyntax.Body.read, classMembers,
      UseSyntax.Body.imports, classMembers, hitems, List.filter_map]
    have hfilter : (fun m : UseSyntax.Member => m.announced?.isNone) ∘ Member.plain =
        fun m : Member => m.announced?.isNone := by
      funext m
      simp [Member.plain]
    rw [hfilter]
    by_cases hgap : before.gap.text = []
    · simp [hgap, Member.entry, Member.plain, Alias.plain, Function.comp_def]
    · rw [if_neg hgap, List.map_map, List.map_map]
      exact List.map_congr_left fun m _ => by simp [Member.entry, hgap]
  rw [hread]
  generalize members.first :: members.rest.map (·.2.2) = items
  induction items with
  | nil => rfl
  | cons m items ih => cases hm : m.announced? <;> simp [hm, Member.expected, ih]

/-! ## Where comments do no harm -/

theorem Quiet.space {d : Declaration} (h : d.Quiet) : d.space.Quiet := h _ List.mem_cons_self

theorem Quiet.ending {d : Declaration} (h : d.Quiet) : d.ending.Quiet := h _ (by simp [fillers])

theorem Quiet.announced {d : Declaration} (h : d.Quiet) :
    ∀ f ∈ announcedFillers d.announced?, f.Quiet := fun f hf => h f (by simp [fillers, hf])

theorem Quiet.body {d : Declaration} (h : d.Quiet) : ∀ f ∈ d.body.fillers, f.Quiet :=
  fun f hf => h f (by simp [fillers, hf])

section Marks

variable {d : Declaration} (hquiet : d.Quiet) {mark : Char} (hmark : mark ∈ [',', '\x7b', '\x7d'])

include hquiet hmark in
theorem not_mem_left : mark ∉ d.left := by
  intro h
  rcases d.mem_left h with h | h
  · exact not_mem_of_unmarked hmark (unmarked_of_chars (chars_of_spells d.keyword.spells (by decide))) h
  · exact hquiet.space.not_mem hmark h

include hquiet hmark in
theorem not_mem_head : mark ∉ d.left ++ announcedText d.announced? := by
  simp [not_mem_left hquiet hmark, announcedText_not_mem hmark hquiet.announced]

include hquiet hmark in
theorem not_mem_tail : mark ∉ d.tail := by
  intro h
  rcases d.mem_tail h with h | h
  · exact hquiet.ending.not_mem hmark h
  · subst h
    revert hmark
    decide

end Marks

/-- A list without braces in its comments is read as a list. -/
theorem contentEntries?_names {clauses : Listed Clause}
    (hquiet : ∀ f ∈ clauses.fillers Clause.fillers, f.Quiet) {head tail : List Char}
    (hhead : '\x7b' ∉ head) (htail : '\x7b' ∉ tail) :
    contentEntries? (head ++ (clauses.text Clause.text ++ tail)) =
      some (listEntries (head ++ (clauses.text Clause.text ++ tail))) := by
  have hlist : '\x7b' ∉ clauses.text Clause.text :=
    clauses.not_mem_text (by simp) (fun _ h => Clause.not_mem_text (by simp) h) hquiet
  rw [contentEntries?, cutAt?_eq_none (by simp [hhead, htail, hlist])]

/-- A group without braces in its comments is cut at its own. -/
theorem contentEntries?_group {front : ImportedName} {legible : Legible front.name.text}
    {before after inner closing : Filler} {members : Listed Member}
    (hquiet : ∀ f ∈ (Body.group front legible before after inner members closing).fillers, f.Quiet)
    {head tail : List Char} (hhead : '\x7b' ∉ head) (htail : '\x7d' ∉ tail) :
    contentEntries? (head ++ ((Body.group front legible before after inner members closing).text ++ tail)) =
      some ((pieces ',' (inner.text ++ (members.text Member.text ++ closing.text))).flatMap (memberEntries
        (frontOf (head ++ (front.text ++ (before.text ++ '\\' :: after.text)))))) := by
  simp only [Body.fillers, List.forall_mem_cons] at hquiet
  obtain ⟨hbefore, hafter, -⟩ := hquiet
  have hfront : '\x7b' ∉ head ++ (front.text ++ (before.text ++ '\\' :: after.text)) := by
    simp [hhead, front.unmarked.not_mem, hbefore.not_mem, hafter.not_mem]
  have hopen := cutAt?_append '\x7b' (inner.text ++ (members.text Member.text ++
    (closing.text ++ '\x7d' :: tail))) _ hfront
  have hclose : cutAtLast? '\x7d'
      ((inner.text ++ (members.text Member.text ++ closing.text)) ++ '\x7d' :: tail) =
      some (inner.text ++ (members.text Member.text ++ closing.text), tail) := cutAtLast?_append htail
  simp only [List.append_assoc, List.cons_append] at hopen hclose
  simp [contentEntries?, Body.text, hopen, hclose]

/-- What is read from a declaration that is not seen to be announced. -/
theorem entries?_of_not_announces (h : ¬d.Announces) :
    entries? d.text = contentEntries?
      ((d.left ++ announcedText d.announced?) ++ (d.body.text ++ d.tail)) := by
  have hclass : importsNoClass (useContent d.text) = false := by
    rw [Bool.eq_false_iff, Ne, d.importsNoClass_iff]
    exact h
  rw [entries?_eq, hclass, if_neg (by simp), d.useContent_text, core]
  simp

/-- A list of names that is not seen to be announced imports something. -/
theorem listEntries_ne_nil {head tail : List Char} {clauses : Listed Clause}
    (hquiet : ∀ f ∈ clauses.fillers Clause.fillers, f.Quiet) (hhead : ',' ∉ head) (htail : ',' ∉ tail) :
    listEntries (head ++ (clauses.text Clause.text ++ tail)) ≠ [] := by
  rw [listEntries, pieces_list (fun _ h => Clause.not_mem_text List.mem_cons_self h) hquiet hhead htail]
  obtain ⟨c, hmem, hc⟩ := ImportedName.mem_not_blank clauses.first.imported
  have hsome : ∀ more, ∃ entry, importOf? (head ++ (clauses.first.text ++ more)) = some entry := by
    intro more
    refine importOf?_isSome ?_ hc
    simp [Clause.text, hmem]
  obtain ⟨more, rest, hstretches⟩ : ∃ more rest, stretches Clause.text clauses.trailing? tail head
      clauses.first clauses.rest = (head ++ (clauses.first.text ++ more)) :: rest := by
    cases clauses.rest with
    | cons entry rest => exact ⟨_, _, rfl⟩
    | nil => cases clauses.trailing? <;> exact ⟨_, _, rfl⟩
  obtain ⟨entry, hentry⟩ := hsome more
  simp [hstretches, hentry]

/-- A declaration of classes is read as without its comments if they stand where they do no harm. -/
theorem entries?_eq_iff_of_classes (hquiet : d.Quiet) (hnone : d.announced? = none) :
    entries? d.text = some (d.plain.read.map Import.entry) ↔
      d.body.Undisturbed d.space.toFiller d.ending := by
  have hseen : ¬d.Announces := by
    rintro ⟨a, ha, -⟩
    rw [hnone] at ha
    cases ha
  have hopen : '\x7b' ∉ d.left := not_mem_left hquiet (by simp)
  have hbody := hquiet.body
  rw [d.entries?_of_not_announces hseen, hnone, announcedText, List.append_nil]
  cases hb : d.body with
  | names clauses =>
    rw [hb] at hbody
    rw [d.read_plain_names hnone hb, Body.text,
      contentEntries?_names hbody hopen (not_mem_tail hquiet (by simp)), Option.some.injEq]
    exact listEntries_eq_iff hbody d.left_leads d.tail_trails (not_mem_left hquiet (by simp))
      (not_mem_tail hquiet (by simp))
  | group front legible before after inner members closing =>
    rw [hb] at hbody
    rw [d.read_plain_group hnone hb,
      contentEntries?_group hbody hopen (not_mem_tail hquiet (by simp)), Option.some.injEq]
    simp only [Body.fillers, List.forall_mem_cons] at hbody
    obtain ⟨-, -, hinner, hclosing, hmembers⟩ := hbody
    exact groupEntries_eq_iff legible d.left_leads hmembers hinner hclosing d.ending

/-- Nothing is read from a declaration that is not seen to be announced if its body is silent. -/
theorem entries?_eq_nil_iff (hquiet : d.Quiet) (hseen : ¬d.Announces) :
    entries? d.text = some [] ↔ d.body.Silent := by
  have hopen : '\x7b' ∉ d.left ++ announcedText d.announced? := not_mem_head hquiet (by simp)
  have hbody := hquiet.body
  rw [d.entries?_of_not_announces hseen]
  cases hb : d.body with
  | names clauses =>
    rw [hb] at hbody
    rw [Body.text, contentEntries?_names hbody hopen (not_mem_tail hquiet (by simp)), Option.some.injEq]
    exact iff_of_false (listEntries_ne_nil hbody (not_mem_head hquiet (by simp))
      (not_mem_tail hquiet (by simp))) id
  | group front legible before after inner members closing =>
    rw [hb] at hbody
    rw [contentEntries?_group hbody hopen (not_mem_tail hquiet (by simp)), Option.some.injEq]
    simp only [Body.fillers, List.forall_mem_cons] at hbody
    obtain ⟨-, -, hinner, hclosing, hmembers⟩ := hbody
    exact groupEntries_eq_nil_iff hmembers hinner hclosing _

theorem entries?_eq_plain_iff (hquiet : d.Quiet) :
    entries? d.text = entries? d.plain.text ↔ d.Undisturbed := by
  rw [entries?_plain, Undisturbed]
  cases hannounced : d.announced? with
  | none => exact d.entries?_eq_iff_of_classes hquiet hannounced
  | some a =>
    rw [d.read_plain_announced hannounced, List.map_nil]
    by_cases hseen : d.Announces
    · rw [entries?_eq, d.importsNoClass_iff.mpr hseen, if_pos rfl]
      exact iff_of_true rfl (Or.inl hseen)
    · simpa only [hseen, false_or] using d.entries?_eq_nil_iff hquiet hseen

end Declaration

end Commented

/-- What comments do to an import declaration. It cannot be read at all if a list of names is not seen
to be announced and the braces in its comments are crossed. Comments without commas and braces change
what it does to a scope unless each stands where it does no harm. -/
theorem comments_in_imports (scope : NameScope) (d : Commented.Declaration) :
    (scope.addUse? d.text = none ↔
      (∃ clauses, d.body = .names clauses) ∧ ¬d.Announces ∧ Crossed d.text.toList) ∧
    (d.Quiet → (scope.addUse? d.text = scope.addUse? d.plain.text ↔ d.Undisturbed)) := by
  refine ⟨?_, fun hquiet => ?_⟩
  · rw [addUse?_eq_entries, Option.map_eq_none_iff, entries?_eq_none_iff, ← d.importsNoClass_iff,
      Bool.not_eq_true]
    refine ⟨fun h => ⟨?_, h⟩, fun h => h.2⟩
    cases hbody : d.body with
    | names clauses => exact ⟨clauses, rfl⟩
    | group front legible before after inner members closing =>
      have htext : d.text.toList =
          (d.keyword.text ++ (d.space.text ++ (Commented.announcedText d.announced? ++
            (front.text ++ (before.text ++ '\\' :: after.text))))) ++ '\x7b' ::
              ((inner.text ++ (members.text Commented.Member.text ++ closing.text)) ++ '\x7d' :: d.endText) := by
        simp [Commented.Declaration.text, hbody, Commented.Body.text]
      rw [htext] at h
      exact absurd h.2 (not_crossed _ _ _)
  · rw [addUse?_eq_iff]
    exact d.entries?_eq_plain_iff hquiet

/-- A comment between two blanks. -/
def oldNote : Filler := ⟨[(oneSpace.toGap, .block " old ".toList (by decide))], oneSpace.toGap⟩

/-- A single blank, without a comment. -/
def oneBreak : Break := ⟨⟨[], oneSpace.toGap⟩, by decide⟩

theorem as_spelled : lowered ['a', 's'] = "as".toList := by decide

/-- An import of `Psr\Log` under the name `L`, with fillers before the word `as` and at the end. -/
def renamed (before : Break) (ending : Filler) : Commented.Declaration where
  keyword := useKeyword
  space := oneBreak
  announced? := none
  body := .names
    { first :=
        { imported :=
            { rooted := false
              name := ⟨⟨['P', 's', 'r'], by simp, List.all_eq_true.mp (by decide)⟩,
                [⟨['L', 'o', 'g'], by simp, List.all_eq_true.mp (by decide)⟩]⟩
              free := fun _ h => by cases h }
          legible := by decide
          alias? := some
            { before
              keyword := ⟨['a', 's'], as_spelled⟩
              after := oneBreak
              short := ⟨['L'], by simp, List.all_eq_true.mp (by decide)⟩
              legible := by decide } }
      rest := []
      trailing? := none }
  ending := ending
  semicolon := true

/-- Behind the alias a comment does no harm, before it the alias is lost. -/
theorem comments_in_imports_renamed :
    (renamed oneBreak oldNote).Quiet ∧
    ({} : NameScope).addUse? (renamed oneBreak oldNote).text =
      ({} : NameScope).addUse? (renamed oneBreak oldNote).plain.text ∧
    (renamed ⟨oldNote, by decide⟩ ⟨[], ⟨[], blanks_nil⟩⟩).Quiet ∧
    ({} : NameScope).addUse? (renamed ⟨oldNote, by decide⟩ ⟨[], ⟨[], blanks_nil⟩⟩).text ≠
      ({} : NameScope).addUse? (renamed ⟨oldNote, by decide⟩ ⟨[], ⟨[], blanks_nil⟩⟩).plain.text := by
  have hkept : (renamed oneBreak oldNote).Quiet := by decide
  have hlost : (renamed ⟨oldNote, by decide⟩ ⟨[], ⟨[], blanks_nil⟩⟩).Quiet := by decide
  refine ⟨hkept, ((comments_in_imports {} _).2 hkept).mpr (by decide), hlost, fun h => ?_⟩
  exact absurd (((comments_in_imports {} _).2 hlost).mp h) (by decide)

/-- Crossed braces in a comment keep a declaration from being read. -/
theorem crossed_comment_unread : ({} : NameScope).addUse? "use Psr\\Log /* \x7d \x7b */;" = none := by
  decide +kernel

end UseSyntax

end FacadeStubs
