import FacadeStubs.Proofs.Names.NotedLists

/-!
# Reading groups with comments

The members of a group are read below what is left of its front. A comment at the front is seen in every
class of the group, a comment before a member keeps it from being seen as announced.

* `importsNoClass_spoiled`: a text that begins with a comment is not seen as announced;
* `Commented.Member.importsNoClass_iff`, `Commented.Member.importOf?_iff`: how a member is read;
* `Commented.groupEntries_eq_iff`: a group is read right if each of its members is.
-/
namespace FacadeStubs

namespace UseSyntax

/-! ## Announcements -/

/-- A keyword is not found where a comment comes before the first blank. -/
theorem afterKeyword?_spoiled {keyword : String} (hkeyword : keyword.toList.all isSegmentChar = true)
    (hlegible : keyword.toList.all (!isNote ·) = true) {word rest : List Char}
    (hword : ∀ c ∈ word, isBlank c = false) (hrest : Noted rest) :
    afterKeyword? keyword (word ++ rest) = none := by
  obtain ⟨c, rest, rfl, hc⟩ := hrest
  by_contra hsome
  obtain ⟨_, hfound⟩ := Option.ne_none_iff_exists'.mp hsome
  obtain ⟨found, blank, more, htext, hspells, hblank⟩ := exists_of_afterKeyword? hfound
  -- What is found reaches to the first blank, so the comment is part of it.
  have hfront : (word ++ c :: rest).takeWhile (!isBlank ·) = found := by
    rw [htext, List.takeWhile_append_of_pos fun x hx => by
      simp [isBlank_of_isSegmentChar (chars_of_spells hspells hkeyword x hx)]]
    simp [hblank]
  have hmem : c ∈ found := by
    rw [← hfront, List.takeWhile_append_of_pos fun x hx => by simp [hword x hx]]
    simp [isBlank_of_isNote hc]
  have hletter : c ∈ keyword.toList := by
    rw [← hspells, ← toLower_of_isNote hc]
    exact List.mem_map_of_mem hmem
  have hnote := List.all_eq_true.mp hlegible c hletter
  simp [hc] at hnote

theorem importsNoClass_spoiled {word rest : List Char} (hword : ∀ c ∈ word, isBlank c = false)
    (hrest : Noted rest) : importsNoClass (word ++ rest) = false := by
  unfold importsNoClass
  rw [afterKeyword?_spoiled (by decide) (by decide) hword hrest,
    afterKeyword?_spoiled (by decide) (by decide) hword hrest]
  rfl

/-- A text at which a name ends, be it only that a comment begins. -/
def Ends (text : List Char) : Prop := Stops text ∨ Noted text

theorem importsNoClass_ends (n : ImportedName) {text : List Char} (h : Ends text) :
    importsNoClass (n.text ++ text) = false :=
  h.elim (importsNoClass_name n) (importsNoClass_spoiled n.not_blank)

theorem stops_blanks {g : List Char} (hg : Blanks g) (hne : g ≠ []) (text : List Char) :
    Stops (g ++ text) := by
  obtain ⟨blank, rest, rfl⟩ := List.exists_cons_of_ne_nil hne
  rintro _ ⟨⟩
  exact isSegmentChar_of_isBlank (hg blank List.mem_cons_self)

theorem Ends.filler {text : List Char} (h : Ends text) (f : Filler) : Ends (f.text ++ text) := by
  rw [f.text_eq]
  by_cases hapart : f.Apart
  · exact Or.inl (by simpa using stops_blanks f.lead.blanks hapart (f.noted ++ text))
  · rw [not_not.mp hapart, List.nil_append]
    by_cases hclear : f.Clear
    · rwa [hclear.noted_eq, List.nil_append]
    · exact Or.inr ((f.noted_of_not_clear hclear).append text)

theorem Trails.ends {text : List Char} {behind : Filler} (h : Trails text behind) : Ends text := by
  obtain ⟨g, rest, rfl, hg, hclear, hnoted⟩ := h
  by_cases hne : g = []
  · rw [hne, List.nil_append]
    by_cases hbehind : behind.Clear
    · exact Or.inl (hclear hbehind ▸ stops_nil)
    · exact Or.inr (hnoted hbehind).1
  · exact Or.inl (stops_blanks hg hne rest)

/-! ## Trimming -/

theorem trimBlanks_behind {g t tail : List Char} (hg : Blanks g) (ht : Solid t) :
    trimBlanks (g ++ (t ++ tail)) = t ++ dropEndWhile isBlank tail := by
  obtain ⟨c, hc, hbegins⟩ := ht.begins
  have hdrop : (g ++ (t ++ tail)).dropWhile isBlank = t ++ tail :=
    dropWhile_solid hg ⟨c, by rw [List.head?_append, hc, Option.some_or], hbegins⟩
  rw [trimBlanks, hdrop, dropEndWhile_append_of_last ht.ends]

/-- A comment is not dropped with an ending that does not reach it. -/
theorem Noted.dropEndWhile {p : Char → Bool} (hp : ∀ c, isNote c = true → p c = false) {rest : List Char}
    (h : Noted rest) (front : List Char) :
    ∃ rest', dropEndWhile p (front ++ rest) = front ++ rest' ∧ Noted rest' := by
  obtain ⟨c, rest, rfl, hc⟩ := h
  exact ⟨c :: FacadeStubs.dropEndWhile p rest, dropEndWhile_stop front (hp c hc) rest, c, _, rfl, hc⟩

theorem isBlank_note : ∀ c, isNote c = true → isBlank c = false := fun _ => isBlank_of_isNote

theorem backslash_note : ∀ c, isNote c = true → (c == '\\') = false := by
  intro c hc
  simp only [isNote, Bool.or_eq_true, beq_iff_eq] at hc
  rcases hc with rfl | rfl <;> decide

theorem Spoiled.trimBlanks {text : List Char} (h : Spoiled text) : ∃ word rest,
    trimBlanks text = word ++ rest ∧ (∀ c ∈ word, isBlank c = false) ∧ Noted rest := by
  obtain ⟨g, word, rest, rfl, hg, hword, hrest⟩ := h
  obtain ⟨rest', hend, hnoted⟩ := Noted.dropEndWhile isBlank_note hrest word
  have hbegins : ∃ c, (word ++ rest).head? = some c ∧ isBlank c = false := by
    cases word with
    | nil =>
      obtain ⟨c, rest, rfl, hc⟩ := hrest
      exact ⟨c, rfl, isBlank_of_isNote hc⟩
    | cons c word => exact ⟨c, rfl, hword c List.mem_cons_self⟩
  refine ⟨word, rest', ?_, hword, hnoted⟩
  rw [FacadeStubs.trimBlanks, dropWhile_solid hg hbegins, hend]

theorem Trails.trim {text : List Char} {behind : Filler} (h : Trails text behind) :
    Trails (dropEndWhile isBlank text) behind := by
  obtain ⟨g, rest, rfl, hg, hclear, hnoted⟩ := h
  by_cases hbehind : behind.Clear
  · rw [hclear hbehind, List.append_nil, dropEndWhile_eq_nil hg]
    exact ⟨[], [], rfl, blanks_nil, fun _ => rfl, fun h => absurd hbehind h⟩
  · obtain ⟨hrest, hapart⟩ := hnoted hbehind
    obtain ⟨rest', hend, hnoted'⟩ := Noted.dropEndWhile isBlank_note hrest g
    exact ⟨g, rest', hend, hg, fun h => absurd h hbehind, fun _ => ⟨hnoted', hapart⟩⟩

namespace Commented

theorem ends_alias {text : List Char} (h : Ends text) : ∀ alias? : Option Alias,
    Ends (aliasText alias? ++ text)
  | none => h
  | some a => by
    have hbefore : Ends (a.before.text ++ (a.keyword.text ++ (a.after.text ++ (a.short.text ++ text)))) := by
      rw [a.before.text_eq]
      by_cases hapart : a.before.Apart
      · exact Or.inl (by simpa using stops_blanks a.before.lead.blanks hapart _)
      · have hnoted := a.before.noted_of_not_clear fun hclear => hapart (a.before.apart_of_clear hclear)
        rw [not_not.mp hapart, List.nil_append]
        exact Or.inr (hnoted.append _)
    simpa [aliasText, Alias.text] using hbefore

/-- An announcement is seen if a blank follows it. -/
theorem importsNoClass_announced_iff (a : Announcement) (rest : List Char) :
    importsNoClass (a.text ++ (a.space.text ++ rest)) = true ↔ a.space.Apart := by
  rw [a.space.text_eq, List.append_assoc]
  by_cases hapart : a.space.Apart
  · have h := importsNoClass_announced ⟨a.text, a.spells, ⟨a.space.lead, hapart⟩⟩ (a.space.noted ++ rest)
    exact iff_of_true h hapart
  · have hnoted := a.space.noted_of_not_clear fun hclear => hapart (a.space.apart_of_clear hclear)
    have h := importsNoClass_spoiled (fun c hc => isBlank_of_isSegmentChar (a.chars c hc))
      (hnoted.append rest)
    rw [not_not.mp hapart, List.nil_append, h]
    simp [hapart]

/-! ## Members of a group -/

theorem solid_aliasText {t : List Char} (ht : Solid t) : ∀ a : Option Alias, Solid (t ++ aliasText a)
  | none => by simpa [aliasText] using ht
  | some a => by
    have h := ht.append (solid_of_chars a.short.ne_nil a.short.chars)
      (a.before.text ++ (a.keyword.text ++ a.after.text))
    simpa [aliasText, Alias.text] using h

theorem solid_announcedText {t : List Char} (ht : Solid t) :
    ∀ a : Option Announcement, Solid (announcedText a ++ t)
  | none => ht
  | some a => by
    have hword : Solid a.text := solid_of_chars a.plain.ne_nil a.chars
    simpa [announcedText] using hword.append ht a.space.text

theorem Member.solid (member : Member) : Solid member.text :=
  solid_announcedText (solid_aliasText (solid_of_all member.name.ne_nil member.name.not_blank) _) _

/-- An import is read from every member that is not announced. -/
theorem memberEntries_of_class (front : List Char) {piece : List Char} (hne : trimBlanks piece ≠ [])
    (hclass : importsNoClass (trimBlanks piece) = false) :
    ∃ entry, importOf? (front ++ '\\' :: trimBlanks piece) = some entry ∧
      memberEntries front piece = [entry] := by
  have hmem : '\\' ∈ front ++ '\\' :: trimBlanks piece := by simp
  obtain ⟨entry, hentry⟩ := importOf?_isSome hmem (by decide)
  refine ⟨entry, hentry, ?_⟩
  simp [memberEntries, hne, hclass, hentry]

section Member

variable (member : Member) {head tail : List Char} {opening behind : Filler}
  (hhead : Leads head opening) (htail : Trails tail behind) (front : List Char)

include hhead in
theorem Member.trimBlanks_clear (hclear : opening.Clear) :
    trimBlanks (head ++ (member.text ++ tail)) = member.text ++ dropEndWhile isBlank tail :=
  trimBlanks_behind (hhead.1 hclear) member.solid

include hhead in
theorem Member.trimBlanks_spoiled (hnoted : ¬opening.Clear) : ∃ word rest,
    trimBlanks (head ++ (member.text ++ tail)) = word ++ rest ∧
      (∀ c ∈ word, isBlank c = false) ∧ Noted rest :=
  Spoiled.trimBlanks ((hhead.2 hnoted).append _)

include hhead in
theorem Member.trimBlanks_ne_nil : trimBlanks (head ++ (member.text ++ tail)) ≠ [] := by
  by_cases hclear : opening.Clear
  · simp [member.trimBlanks_clear hhead hclear, member.solid.ne_nil]
  · obtain ⟨word, rest, htrim, -, c, more, rfl, -⟩ := member.trimBlanks_spoiled hhead hclear
    rw [htrim]
    simp

include hhead htail in
/-- A member is taken for a function or a constant if it is seen to be announced. -/
theorem Member.importsNoClass_iff :
    importsNoClass (trimBlanks (head ++ (member.text ++ tail))) = true ↔ member.Announces opening := by
  unfold Member.Announces
  by_cases hclear : opening.Clear
  · rw [member.trimBlanks_clear hhead hclear, Member.text]
    cases member.announced? with
    | none =>
      have h := importsNoClass_ends ⟨false, member.name, fun _ => member.free⟩
        (ends_alias htail.trim.ends member.alias?)
      simpa [announcedText, ImportedName.text, ImportedName.root] using h
    | some a =>
      have h := importsNoClass_announced_iff a
        (member.name.text ++ (aliasText member.alias? ++ dropEndWhile isBlank tail))
      simpa [announcedText, Announcement.Seen, hclear] using h
  · obtain ⟨word, rest, htrim, hword, hrest⟩ := member.trimBlanks_spoiled hhead hclear
    rw [htrim, importsNoClass_spoiled hword hrest]
    simp [Announcement.Seen, hclear]

include hhead htail in
/-- Nothing is read from a member if it is seen to be announced. -/
theorem Member.memberEntries_eq_nil_iff :
    memberEntries front (head ++ (member.text ++ tail)) = [] ↔ member.Announces opening := by
  rw [← member.importsNoClass_iff hhead htail]
  constructor
  · intro hnil
    by_contra hclass
    obtain ⟨entry, -, hentries⟩ := memberEntries_of_class front (member.trimBlanks_ne_nil hhead)
      (Bool.eq_false_iff.mpr hclass)
    rw [hentries] at hnil
    cases hnil
  · intro hclass
    simp [memberEntries, hclass]

end Member

/-! ## The front of a group -/

/-- What is left of the text before the braces of a group. -/
def frontOf (text : List Char) : List Char := dropEndWhile (· == '\\') (trimBlanks text)

theorem spoiled_frontOf {text : List Char} (h : Spoiled text) : Spoiled (frontOf text) := by
  obtain ⟨word, rest, htrim, hword, hrest⟩ := h.trimBlanks
  obtain ⟨rest', hend, hnoted⟩ := Noted.dropEndWhile backslash_note hrest word
  exact ⟨[], word, rest', by rw [frontOf, htrim, hend, List.nil_append], blanks_nil, hword, hnoted⟩

section Front

variable {front : ImportedName} {head : List Char} (hhead : Blanks head) {before after : Filler}

theorem getLast?_front : ∃ c, front.text.getLast? = some c ∧ (c == '\\') = false := by
  obtain ⟨c, hc, hsegment⟩ := front.name.getLast?_text
  refine ⟨c, by rw [ImportedName.text, List.getLast?_append, hc, Option.some_or], ?_⟩
  simp only [beq_eq_false_iff_ne]
  rintro rfl
  exact ne_of_isSegmentChar hsegment List.mem_cons_self

include hhead in
theorem frontOf_clear :
    frontOf (head ++ (front.text ++ (before.text ++ '\\' :: after.text))) =
      front.text ++ dropEndWhile (· == '\\') (before.text ++ '\\' :: dropEndWhile isBlank after.text) := by
  rw [frontOf, trimBlanks_behind hhead front.solid, dropEndWhile_stop _ (by decide),
    dropEndWhile_append_of_last getLast?_front]

include hhead in
/-- Behind a gap, only the front of a group is read. -/
theorem importOf?_loose_front (hapart : before.Apart) (member : List Char) :
    importOf? (frontOf (head ++ (front.text ++ (before.text ++ '\\' :: after.text))) ++ '\\' :: member) =
      some (Import.mk front.name none).entry := by
  have hlead : ∃ c, before.lead.text.getLast? = some c ∧ (c == '\\') = false := by
    refine ⟨_, List.getLast?_eq_some_getLast hapart, ?_⟩
    have hblank := before.lead.blanks _ (List.getLast_mem hapart)
    simp only [beq_eq_false_iff_ne]
    intro heq
    rw [heq] at hblank
    revert hblank
    decide
  obtain ⟨dropped, -, hrest⟩ := exists_dropEndWhile (· == '\\')
    (before.noted ++ '\\' :: dropEndWhile isBlank after.text)
  rw [frontOf_clear hhead, before.text_eq, List.append_assoc before.lead.text,
    dropEndWhile_append_of_last hlead]
  generalize dropEndWhile (· == '\\') (before.noted ++ '\\' :: dropEndWhile isBlank after.text) = rest at hrest
  have hnext : ∀ c, (rest ++ '\\' :: member).head? = some c → isBlank c = false ∧ c.toLower ≠ 'a' := by
    intro c hc
    have hbegins : c = '\\' ∨ isNote c = true := by
      cases rest with
      | nil => exact Or.inl (by simpa using hc.symm)
      | cons x rest =>
        obtain rfl : x = c := by simpa using hc
        by_cases hclear : before.Clear
        · rw [hclear.noted_eq] at hrest
          exact Or.inl (List.cons.inj hrest).1.symm
        · obtain ⟨y, more, hnoted, hy⟩ := before.noted_of_not_clear hclear
          rw [hnoted] at hrest
          exact Or.inr ((List.cons.inj hrest).1 ▸ hy)
    rcases hbegins with rfl | hc
    · decide
    · refine ⟨isBlank_of_isNote hc, ?_⟩
      rw [toLower_of_isNote hc]
      rintro rfl
      revert hc
      decide
  have h := importOf?_apart front.root_eq front.name before.lead.blanks hapart (head_word hnext)
  simpa [ImportedName.text] using h

include hhead in
theorem frontOf_tight (hbefore : before.text = []) (hafter : after.Clear) :
    frontOf (head ++ (front.text ++ (before.text ++ '\\' :: after.text))) = front.text := by
  have hblanks : dropEndWhile isBlank after.text = [] :=
    dropEndWhile_eq_nil (hafter.text_eq ▸ after.lead.blanks)
  rw [frontOf_clear hhead, hbefore, hblanks]
  simp [dropEndWhile]

theorem dropWhile_front (more : List Char) :
    (front.text ++ more).dropWhile (· == '\\') = front.name.text ++ more := by
  obtain ⟨c, hc, hsegment⟩ := front.name.head?_text
  obtain ⟨rest, hrest⟩ := List.head?_eq_some_iff.mp hc
  have hback : c ≠ '\\' := fun h => ne_of_isSegmentChar hsegment (h ▸ List.mem_cons_self)
  rw [ImportedName.text, List.append_assoc, List.dropWhile_append_of_pos (by simpa using front.root_eq),
    hrest, List.cons_append, List.dropWhile_cons_of_neg (by simpa using hback)]

include hhead in
/-- A comment that touches the front becomes part of every name. -/
theorem spoiled_front (htouch : ¬before.Apart) (hbefore : ¬before.Clear) :
    Spoiled (frontOf (head ++ (front.text ++ (before.text ++ '\\' :: after.text)))) := by
  obtain ⟨rest, hrest, hnoted⟩ := Noted.dropEndWhile backslash_note
    ((before.noted_of_not_clear hbefore).append ('\\' :: dropEndWhile isBlank after.text)) []
  rw [List.nil_append, List.nil_append] at hrest
  rw [frontOf_clear hhead, before.text_eq, not_not.mp htouch, List.nil_append, hrest]
  exact ⟨[], front.text, rest, rfl, blanks_nil, front.not_blank, hnoted⟩

include hhead in
/-- With a comment behind its backslash, the front alone is imported, or the comment with it. -/
theorem importOf?_open_front (hbefore : before.text = []) (hafter : ¬after.Clear) (member : List Char)
    {name : QualifiedName} (hlegible : Legible name.text)
    (hne : name.text ≠ front.name.text ++ ['\\']) (short : Option Segment) :
    importOf? (frontOf (head ++ (front.text ++ (before.text ++ '\\' :: after.text))) ++ '\\' :: member) ≠
      some (Import.mk name short).entry := by
  have hword : ∀ c ∈ front.text ++ ['\\'], isBlank c = false := by
    intro c hc
    rcases List.mem_append.mp hc with hc | hc
    · exact front.not_blank c hc
    · rw [List.mem_singleton.mp hc]
      decide
  obtain ⟨trimmed, htrimmed, hnoted⟩ :=
    Noted.dropEndWhile isBlank_note (after.noted_of_not_clear hafter) after.lead.text
  obtain ⟨rest, hrest, hnoted⟩ := Noted.dropEndWhile backslash_note hnoted ('\\' :: after.lead.text)
  have hclause : frontOf (head ++ (front.text ++ (before.text ++ '\\' :: after.text))) ++ '\\' :: member =
      (front.text ++ ['\\']) ++ (after.lead.text ++ (rest ++ '\\' :: member)) := by
    rw [List.cons_append] at hrest
    rw [frontOf_clear hhead, hbefore, after.text_eq, htrimmed, List.nil_append, hrest]
    simp
  rw [hclause]
  by_cases hgap : after.lead.text = []
  · refine importOf?_ne_of_spoiled ?_ hlegible short
    exact ⟨[], _, rest ++ '\\' :: member, by simp [hgap], blanks_nil, hword, hnoted.append _⟩
  · obtain ⟨entry, hentry, hname⟩ :=
      importOf?_word (blankWords_append (by simp) hword after.lead.blanks hgap)
    rw [hentry]
    rintro ⟨⟩
    rw [dropWhile_front] at hname
    exact hne (String.ofList_injective hname)

end Front

/-! ## Groups -/

theorem QualifiedName.last_below (front name : QualifiedName) : (front.below name).last = name.last := by
  simp [QualifiedName.below, QualifiedName.last, List.getLast?_append, List.getLast?_cons]

theorem legible_below {front name : QualifiedName} (hfront : Legible front.text)
    (hname : Legible name.text) : Legible (front.below name).text := by
  intro c hc
  rw [QualifiedName.text_below] at hc
  rcases List.mem_append.mp hc with hc | hc
  · exact hfront c hc
  · rcases List.mem_cons.mp hc with rfl | hc
    · decide
    · exact hname c hc

/-- What is expected of a class in a group. -/
def Member.entry (front : ImportedName) (before : Filler) (member : Member) : String × String :=
  if before.gap.text = [] then
    (Import.mk (front.name.below member.name) (member.alias?.map (·.short))).entry
  else (Import.mk front.name none).entry

/-- What is expected of a member of a group. -/
def Member.expected (front : ImportedName) (before : Filler) (member : Member) : List (String × String) :=
  if member.announced?.isSome then [] else [member.entry front before]

theorem Member.exists_entry {front : ImportedName} (hlegible : Legible front.name.text) (before : Filler)
    (member : Member) : ∃ name short, Legible name.text ∧ name.text ≠ front.name.text ++ ['\\'] ∧
      member.entry front before = (Import.mk name short).entry := by
  unfold entry
  split
  · refine ⟨_, _, legible_below hlegible member.legible, ?_, rfl⟩
    rw [QualifiedName.text_below]
    simpa using member.name.ne_nil
  · exact ⟨_, _, hlegible, by simp, rfl⟩

section Group

variable {front : ImportedName} (hlegible : Legible front.name.text) {start before after : Filler}
  {frontHead : List Char} (hstart : Leads frontHead start) {member : Member}
  {head tail : List Char} {opening behind : Filler} (hhead : Leads head opening)
  (htail : Trails tail behind)

include hlegible hhead htail in
/-- Below a front without comments, a class is read right if its clause is. -/
theorem Member.importOf?_tight_iff (hclass : member.announced? = none) (hbefore : before.text = []) :
    importOf? (front.text ++ '\\' :: trimBlanks (head ++ (member.text ++ tail))) =
        some (member.entry front before) ↔
      opening.Clear ∧ AliasKept member.name.last member.alias? behind := by
  have hentry : member.entry front before =
      (Import.mk (front.name.below member.name) (member.alias?.map (·.short))).entry :=
    if_pos (Filler.gap_eq_nil hbefore)
  rw [hentry]
  by_cases hclear : opening.Clear
  · have h := importOf?_clause_iff front.root_eq (front.name.below member.name)
      (legible_below hlegible member.legible) member.alias? htail.trim
    rw [member.trimBlanks_clear hhead hclear, ← QualifiedName.last_below front.name]
    simpa [Member.text, hclass, announcedText, ImportedName.text, QualifiedName.text_below, hclear] using h
  · obtain ⟨word, rest, htrim, hword, hrest⟩ := member.trimBlanks_spoiled hhead hclear
    refine iff_of_false ?_ fun h => hclear h.1
    rw [htrim]
    refine importOf?_ne_of_spoiled ?_ (legible_below hlegible member.legible) _
    refine ⟨[], front.text ++ '\\' :: word, rest, by simp, blanks_nil, ?_, hrest⟩
    intro c hc
    rcases List.mem_append.mp hc with hc | hc
    · exact front.not_blank c hc
    · rcases List.mem_cons.mp hc with rfl | hc
      · decide
      · exact hword c hc

include hlegible hstart hhead htail in
/-- When a class in a group is read right. -/
theorem Member.importOf?_iff (hclass : member.announced? = none) :
    importOf? (frontOf (frontHead ++ (front.text ++ (before.text ++ '\\' :: after.text))) ++
        '\\' :: trimBlanks (head ++ (member.text ++ tail))) = some (member.entry front before) ↔
      start.Clear ∧ (before.Apart ∨ before.text = [] ∧ after.Clear ∧ opening.Clear ∧
        AliasKept member.name.last member.alias? behind) := by
  obtain ⟨name, short, hname, hne, hentry⟩ := member.exists_entry hlegible before
  by_cases hclear : start.Clear
  · have hblanks := hstart.1 hclear
    by_cases hapart : before.Apart
    · have hloose : member.entry front before = (Import.mk front.name none).entry :=
        if_neg (Filler.gap_ne_nil hapart)
      rw [importOf?_loose_front hblanks hapart, hloose]
      exact iff_of_true rfl ⟨hclear, Or.inl hapart⟩
    · by_cases hbefore : before.Clear
      · have htext := before.text_eq_nil_iff.mpr ⟨hbefore, hapart⟩
        by_cases hafter : after.Clear
        · rw [frontOf_tight hblanks htext hafter,
            Member.importOf?_tight_iff hlegible hhead htail hclass htext]
          simp [hclear, hapart, htext, hafter]
        · rw [hentry]
          exact iff_of_false (importOf?_open_front hblanks htext hafter _ hname hne short)
            (by simp [hapart, hafter])
      · have htext : before.text ≠ [] := fun h => hbefore (before.text_eq_nil_iff.mp h).1
        rw [hentry]
        exact iff_of_false (importOf?_ne_of_spoiled ((spoiled_front hblanks hapart hbefore).append _)
          hname short) (by simp [hapart, htext])
  · rw [hentry]
    exact iff_of_false (importOf?_ne_of_spoiled
      ((spoiled_frontOf ((hstart.2 hclear).append _)).append _) hname short) fun h => hclear h.1

include hhead htail in
theorem Member.memberEntries_of_none (front : List Char) (hclass : member.announced? = none) :
    ∃ entry, importOf? (front ++ '\\' :: trimBlanks (head ++ (member.text ++ tail))) = some entry ∧
      memberEntries front (head ++ (member.text ++ tail)) = [entry] := by
  refine memberEntries_of_class front (member.trimBlanks_ne_nil hhead) (Bool.eq_false_iff.mpr ?_)
  rw [Ne, member.importsNoClass_iff hhead htail, Member.Announces]
  simp [hclass]

end Group

theorem memberEntries_left {front tail : List Char} {closing : Filler} (htail : Trails tail closing) :
    memberEntries front tail = [] ↔ closing.Clear := by
  obtain ⟨g, rest, rfl, hg, hclear, hnoted⟩ := htail
  by_cases hclosing : closing.Clear
  · rw [hclear hclosing, List.append_nil]
    simp [memberEntries, trimBlanks_blanks hg, hclosing]
  · obtain ⟨word, rest', htrim, hword, hrest⟩ :=
      Spoiled.trimBlanks ⟨g, [], rest, rfl, hg, by simp, (hnoted hclosing).1⟩
    have hne : trimBlanks (g ++ ([] ++ rest)) ≠ [] := by
      obtain ⟨c, more, rfl, -⟩ := hrest
      rw [htrim]
      simp
    obtain ⟨entry, -, hentries⟩ :=
      memberEntries_of_class front hne (htrim ▸ importsNoClass_spoiled hword hrest)
    rw [List.nil_append] at hentries
    simp [hentries, hclosing]

/-- A group is read right if each of its members is. -/
theorem groupEntries_eq_iff {front : ImportedName} (hlegible : Legible front.name.text)
    {start before after inner closing : Filler} {frontHead : List Char} (hstart : Leads frontHead start)
    {members : Listed Member} (hquiet : ∀ f ∈ members.fillers Member.fillers, f.Quiet)
    (hinner : inner.Quiet) (hclosing : closing.Quiet) (ending : Filler) :
    (pieces ',' (inner.text ++ (members.text Member.text ++ closing.text))).flatMap
        (memberEntries (frontOf (frontHead ++ (front.text ++ (before.text ++ '\\' :: after.text))))) =
      (members.first :: members.rest.map (·.2.2)).flatMap (Member.expected front before) ↔
      (Body.group front hlegible before after inner members closing).Undisturbed start ending := by
  rw [pieces_list (fun _ h => Member.not_mem_text List.mem_cons_self h) hquiet
    (hinner.not_mem List.mem_cons_self) (hclosing.not_mem List.mem_cons_self)]
  refine (flatMap_stretches ?_ memberEntries_left members.trailing? closing.trails inner.leads
    members.first members.rest).2
  intro head tail opening behind member hhead htail
  cases hannounced : member.announced? with
  | some a =>
    simp only [Member.expected, hannounced, Option.isSome_some, if_true, List.length_nil, Nat.zero_le,
      true_and]
    rw [member.memberEntries_eq_nil_iff hhead htail, Member.Announces, Member.Kept, hannounced]
    simp
  | none =>
    obtain ⟨entry, hentry, hentries⟩ := Member.memberEntries_of_none hhead htail
      (frontOf (frontHead ++ (front.text ++ (before.text ++ '\\' :: after.text)))) hannounced
    rw [Member.Kept, hannounced, ← Member.importOf?_iff hlegible hstart hhead htail hannounced, hentry,
      hentries]
    simp [Member.expected, hannounced]

/-- Nothing is read from a group if all its members are seen to be announced. -/
theorem groupEntries_eq_nil_iff {front : ImportedName} {legible : Legible front.name.text}
    {before after inner closing : Filler} {members : Listed Member}
    (hquiet : ∀ f ∈ members.fillers Member.fillers, f.Quiet) (hinner : inner.Quiet)
    (hclosing : closing.Quiet) (frontText : List Char) :
    (pieces ',' (inner.text ++ (members.text Member.text ++ closing.text))).flatMap
        (memberEntries frontText) = [] ↔
      (Body.group front legible before after inner members closing).Silent := by
  rw [pieces_list (fun _ h => Member.not_mem_text List.mem_cons_self h) hquiet
    (hinner.not_mem List.mem_cons_self) (hclosing.not_mem List.mem_cons_self)]
  have hnone : (members.first :: members.rest.map (·.2.2)).flatMap
      (fun _ => ([] : List (String × String))) = [] := by simp
  rw [← hnone]
  refine (flatMap_stretches ?_ memberEntries_left members.trailing? closing.trails inner.leads
    members.first members.rest).2
  intro head tail opening behind member hhead htail
  exact ⟨Nat.zero_le _, member.memberEntries_eq_nil_iff hhead htail frontText⟩

end Commented

end UseSyntax
end FacadeStubs
