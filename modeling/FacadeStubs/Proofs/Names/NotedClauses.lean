import FacadeStubs.Proofs.Names.Comments

/-!
# Reading clauses with comments

A clause is read by its words, so a comment in it is read as words too, or as part of a word. Behind a
complete clause, with a blank before it, it does no harm; elsewhere it ends up in a name, or keeps the
alias from being seen.

* `Filler.text_eq`: a filler is blanks, and then nothing or a comment with all that follows it;
* `importOf?_spoiled`: a comment before the first blank becomes part of the imported name;
* `Commented.importOf?_clause_iff`: the comments in and behind a clause with which it is read right.
-/
namespace FacadeStubs

namespace UseSyntax

/-! ## Fillers as text -/

/-- A text that begins with a comment. -/
def Noted (text : List Char) : Prop := ∃ c rest, text = c :: rest ∧ isNote c = true

theorem isBlank_of_isNote {c : Char} (h : isNote c = true) : isBlank c = false := by
  simp only [isNote, Bool.or_eq_true, beq_iff_eq] at h
  rcases h with rfl | rfl <;> decide

theorem toLower_of_isNote {c : Char} (h : isNote c = true) : c.toLower = c := by
  simp only [isNote, Bool.or_eq_true, beq_iff_eq] at h
  rcases h with rfl | rfl <;> decide

theorem isNote_of_toLower {c : Char} (h : isNote c.toLower = true) : isNote c = true := by
  have hmark : c.toLower.toNat < 97 := by
    simp only [isNote, Bool.or_eq_true, beq_iff_eq] at h
    rcases h with h | h <;> rw [h] <;> decide
  rwa [← eq_of_toLower rfl hmark] at h

theorem Comment.noted : ∀ (comment : Comment) (rest : List Char), Noted (comment.text ++ rest)
  | block _ _, _ => ⟨'/', _, rfl, by decide⟩
  | line true _ _, _ => ⟨'/', _, rfl, by decide⟩
  | line false _ _, _ => ⟨'#', _, rfl, by decide⟩

namespace Filler

variable {f : Filler}

/-- A filler is blanks, and then nothing or a comment with all that follows it. -/
theorem text_eq (f : Filler) : f.text = f.lead.text ++ f.noted := by
  unfold text lead noted
  cases f.notes with
  | nil => simp [notesText]
  | cons note more => simp [notesText]

theorem Clear.noted_eq (h : f.Clear) : f.noted = [] := by
  rw [Filler.noted, h]

theorem Clear.text_eq (h : f.Clear) : f.text = f.lead.text := by
  rw [Filler.text_eq, h.noted_eq, List.append_nil]

theorem noted_of_not_clear (h : ¬f.Clear) : Noted f.noted := by
  unfold Filler.noted
  cases hnotes : f.notes with
  | nil => exact absurd hnotes h
  | cons note more => exact note.2.noted _

theorem text_eq_nil_iff (f : Filler) : f.text = [] ↔ f.Clear ∧ ¬f.Apart := by
  constructor
  · intro h
    by_cases hclear : f.Clear
    · exact ⟨hclear, fun hapart => hapart (hclear.text_eq ▸ h)⟩
    · obtain ⟨c, rest, hnoted, -⟩ := noted_of_not_clear hclear
      simp [f.text_eq, hnoted] at h
  · rintro ⟨hclear, htouch⟩
    rw [hclear.text_eq]
    exact not_not.mp htouch

/-- The blanks in front of the first comment stay. -/
theorem gap_ne_nil (h : f.Apart) : f.gap.text ≠ [] := by
  intro hgap
  refine h ?_
  unfold lead
  simp only [gap, List.append_eq_nil_iff] at hgap
  cases hnotes : f.notes with
  | nil => exact hgap.2
  | cons note more =>
    rw [hnotes] at hgap
    simpa using (List.append_eq_nil_iff.mp hgap.1).1

theorem gap_eq_nil (h : f.text = []) : f.gap.text = [] := by
  obtain ⟨hclear, htouch⟩ := f.text_eq_nil_iff.mp h
  have hrest : f.lead.text = [] := not_not.mp htouch
  rw [Filler.Clear] at hclear
  simpa [gap, lead, hclear] using hrest

theorem Quiet.not_mem (h : f.Quiet) {mark : Char} (hmark : mark ∈ [',', '\x7b', '\x7d']) :
    mark ∉ f.text := by
  have hgap : ∀ g : Gap, mark ∉ g.text := fun g => by
    refine g.unmarked.not_mem ?_
    rw [List.mem_cons] at hmark
    exact List.mem_cons.mpr (hmark.imp_right (List.mem_cons_of_mem _))
  have hnote : ∀ note ∈ f.notes, mark ∉ note.2.text := fun note hnote hmem => h note hnote mark hmem hmark
  simp only [text, notesText, List.mem_append, List.mem_flatMap, not_or, not_exists, not_and]
  exact ⟨fun note hmem => ⟨hgap _, hnote note hmem⟩, hgap _⟩

end Filler

theorem Break.apart_of_clear (b : Break) (h : b.Clear) : b.Apart := by
  intro hlead
  refine b.ne_nil ?_
  have htext := h.text_eq
  rw [hlead] at htext
  exact htext

/-! ## Clauses -/

/-- A text in which a comment comes before the first blank, or before anything else. -/
def Spoiled (text : List Char) : Prop :=
  ∃ g word rest, text = g ++ (word ++ rest) ∧ Blanks g ∧ (∀ c ∈ word, isBlank c = false) ∧ Noted rest

theorem Spoiled.append {text : List Char} (h : Spoiled text) (more : List Char) :
    Spoiled (text ++ more) := by
  obtain ⟨g, word, rest, rfl, hg, hword, c, rest', rfl, hc⟩ := h
  exact ⟨g, word, c :: (rest' ++ more), by simp, hg, hword, c, rest' ++ more, rfl, hc⟩

/-- A text as it stands behind `opening`, or is left of it. -/
def Leads (text : List Char) (opening : Filler) : Prop :=
  (opening.Clear → Blanks text) ∧ (¬opening.Clear → Spoiled text)

/-- A text as it stands for `behind`, or is left of it. -/
def Trails (text : List Char) (behind : Filler) : Prop :=
  ∃ g rest, text = g ++ rest ∧ Blanks g ∧ (behind.Clear → rest = []) ∧
    (¬behind.Clear → Noted rest ∧ (g ≠ [] ↔ behind.Apart))

theorem Filler.leads (f : Filler) : Leads f.text f := by
  refine ⟨fun h => h.text_eq ▸ f.lead.blanks, fun h => ?_⟩
  exact ⟨f.lead.text, [], f.noted, by simp [f.text_eq], f.lead.blanks, by simp, f.noted_of_not_clear h⟩

theorem Filler.trails (f : Filler) : Trails f.text f :=
  ⟨f.lead.text, f.noted, f.text_eq, f.lead.blanks, fun h => h.noted_eq,
    fun h => ⟨f.noted_of_not_clear h, Iff.rfl⟩⟩

theorem importOf?_blanks {g : List Char} (hg : Blanks g) (text : List Char) :
    importOf? (g ++ text) = importOf? text := by
  have hwords : blankWords (g ++ text) = blankWords text := wordsFrom_blanks hg text
  unfold importOf?
  rw [hwords]

theorem importOf?_trimBlanks (text : List Char) : importOf? (trimBlanks text) = importOf? text := by
  unfold importOf?
  rw [blankWords_trimBlanks]

theorem mem_dropWhile_of_not {p : Char → Bool} {c : Char} {text : List Char} (h : c ∈ text)
    (hc : p c = false) : c ∈ text.dropWhile p := by
  rw [← text.takeWhile_append_dropWhile (p := p)] at h
  rcases List.mem_append.mp h with h | h
  · rw [List.mem_takeWhile_imp h] at hc
    cases hc
  · exact h

/-- An import is read from every text that is not blank, under the name of its first word. -/
theorem importOf?_word {word : List Char} {more : List (List Char)} {text : List Char}
    (h : blankWords text = word :: more) :
    ∃ entry, importOf? text = some entry ∧ entry.2 = String.ofList (word.dropWhile (· == '\\')) := by
  unfold importOf?
  rw [h]
  dsimp only
  split
  · split <;> exact ⟨_, rfl, rfl⟩
  · exact ⟨_, rfl, rfl⟩

/-- A comment in front of the first blank becomes part of a name. -/
theorem importOf?_spoiled {text : List Char} (h : Spoiled text) :
    ∃ entry, importOf? text = some entry ∧ ¬Legible entry.2.toList := by
  obtain ⟨g, word, rest, rfl, hg, hword, c, rest', rfl, hc⟩ := h
  obtain ⟨tail, more, hwords⟩ := blankWords_glued hword (isBlank_of_isNote hc) rest'
  obtain ⟨entry, hentry, hname⟩ := importOf?_word hwords
  refine ⟨entry, by rw [importOf?_blanks hg, hentry], fun hlegible => ?_⟩
  have hback : (c == '\\') = false := by
    simp only [isNote, Bool.or_eq_true, beq_iff_eq] at hc
    rcases hc with rfl | rfl <;> decide
  have hmem : c ∈ entry.2.toList := by
    rw [hname, String.toList_ofList]
    exact mem_dropWhile_of_not (by simp) hback
  rw [hlegible c hmem] at hc
  cases hc

/-- No word with a comment in front of it is read as the word before an alias. -/
theorem lowered_ne_as {c : Char} (hc : c.toLower ≠ 'a') (rest : List Char) :
    lowered (c :: rest) ≠ ['a', 's'] := by
  intro h
  simp only [lowered, List.map_cons, List.cons.injEq] at h
  exact hc h.1

variable {root : List Char} (hroot : ∀ c ∈ root, c = '\\') (name : QualifiedName)

include hroot in
/-- A name is read without an alias if its word ends there and the next word does not announce one. -/
theorem importOf?_alone {more : List (List Char)} {text : List Char}
    (hwords : blankWords text = (root ++ name.text) :: more)
    (hmore : ∀ word, more.head? = some word → lowered word ≠ ['a', 's']) :
    importOf? text = some (Import.mk name none).entry := by
  have hshort : lowerCase (lastSegment (String.ofList name.text)) =
      String.ofList (lowered name.last.text) := by
    rw [name.lastSegment_text, lowerCase, String.toList_ofList]
  unfold importOf?
  rw [hwords]
  dsimp only
  rw [name.dropWhile_root hroot]
  split
  · rename_i word short _
    have has : (lowered word == ['a', 's']) = false := by simpa using hmore word rfl
    rw [has, if_neg (by simp), hshort]
    rfl
  · rw [hshort]
    rfl

/-- No word that begins with another letter is the word before an alias. -/
theorem head_word {rest : List Char} (hrest : ∀ c, rest.head? = some c → isBlank c = false ∧ c.toLower ≠ 'a') :
    ∀ word, (blankWords rest).head? = some word → lowered word ≠ ['a', 's'] := by
  intro word hhead
  cases rest with
  | nil => cases hhead
  | cons c rest =>
    obtain ⟨hblank, hletter⟩ := hrest c rfl
    obtain ⟨tail, more, hfirst⟩ := blankWords_cons hblank rest
    obtain rfl : c :: tail = word := by simpa [hfirst] using hhead
    exact lowered_ne_as hletter tail

theorem Noted.head_word {rest : List Char} (h : Noted rest) :
    ∀ word, (blankWords rest).head? = some word → lowered word ≠ ['a', 's'] := by
  obtain ⟨c, rest, rfl, hc⟩ := h
  refine UseSyntax.head_word ?_
  rintro _ ⟨⟩
  rw [toLower_of_isNote hc]
  refine ⟨isBlank_of_isNote hc, ?_⟩
  rintro rfl
  revert hc
  decide

theorem Noted.append {rest : List Char} (h : Noted rest) (more : List Char) : Noted (rest ++ more) := by
  obtain ⟨c, rest, rfl, hc⟩ := h
  exact ⟨c, rest ++ more, rfl, hc⟩

include hroot in
/-- Behind a blank, only the word before an alias is looked at. -/
theorem importOf?_apart {g rest : List Char} (hg : Blanks g) (hne : g ≠ [])
    (hrest : ∀ word, (blankWords rest).head? = some word → lowered word ≠ ['a', 's']) :
    importOf? (root ++ (name.text ++ (g ++ rest))) = some (Import.mk name none).entry := by
  have hword : root ++ name.text ≠ [] := by simp [name.ne_nil]
  refine importOf?_alone hroot name ?_ hrest
  rw [← List.append_assoc]
  exact blankWords_append hword (rooted_not_blank hroot name) hg hne

theorem legible_entry {name : QualifiedName} (hlegible : Legible name.text) (short : Option Segment) :
    Legible (Import.mk name short).entry.2.toList := by
  simpa [Import.entry, Import.full] using hlegible

include hroot in
theorem spoiled_name {rest : List Char} (h : Noted rest) : Spoiled (root ++ (name.text ++ rest)) :=
  ⟨[], root ++ name.text, rest, by simp, blanks_nil, rooted_not_blank hroot name, h⟩

/-- A text with a comment in a name is not read as a legible import. -/
theorem importOf?_ne_of_spoiled {text : List Char} (h : Spoiled text) {name : QualifiedName}
    (hlegible : Legible name.text) (short : Option Segment) :
    importOf? text ≠ some (Import.mk name short).entry := by
  obtain ⟨entry, hentry, hspoiled⟩ := importOf?_spoiled h
  rw [hentry]
  rintro ⟨⟩
  exact hspoiled (legible_entry hlegible short)

/-- The word before a filler ends there, or goes on with the comment that touches it. -/
theorem Trails.words {word : List Char} (hne : word ≠ []) (hword : ∀ c ∈ word, isBlank c = false)
    {tail : List Char} {behind : Filler} (h : Trails tail behind) :
    (behind.SetOff ∧ ∃ more, blankWords (word ++ tail) = word :: more ∧
      ∀ next, more.head? = some next → lowered next ≠ ['a', 's']) ∨
    (¬behind.SetOff ∧ Noted tail) := by
  obtain ⟨g, rest, rfl, hg, hclear, hnoted⟩ := h
  by_cases hbehind : behind.Clear
  · refine Or.inl ⟨Or.inl hbehind, [], ?_, by simp⟩
    rw [hclear hbehind, List.append_nil, blankWords, wordsFrom_append_blanks hg]
    exact blankWords_single hne hword
  · obtain ⟨hrest, hapart⟩ := hnoted hbehind
    by_cases hgap : g = []
    · have htouch : ¬behind.Apart := fun h => hapart.mpr h hgap
      exact Or.inr ⟨not_or.mpr ⟨hbehind, htouch⟩, by rwa [hgap, List.nil_append]⟩
    · refine Or.inl ⟨Or.inr (hapart.mp hgap), _, blankWords_append hne hword hg hgap, ?_⟩
      exact hrest.head_word

namespace Commented

include hroot in
/-- A clause without an alias is read right if no comment touches it. -/
theorem importOf?_single_iff (hlegible : Legible name.text) {tail : List Char} {behind : Filler}
    (htail : Trails tail behind) :
    importOf? (root ++ (name.text ++ tail)) = some (Import.mk name none).entry ↔ behind.SetOff := by
  have hne : root ++ name.text ≠ [] := by simp [name.ne_nil]
  rcases htail.words hne (rooted_not_blank hroot name) with ⟨hsetOff, more, hwords, hmore⟩ | ⟨htouch, hnoted⟩
  · rw [List.append_assoc] at hwords
    exact iff_of_true (importOf?_alone hroot name hwords hmore) hsetOff
  · exact iff_of_false (importOf?_ne_of_spoiled (spoiled_name hroot name hnoted) hlegible none) htouch

/-- A missing alias is not missed if it is the last segment of the name. -/
theorem entry_without_alias (short : Segment) :
    some (Import.mk name none).entry = some (Import.mk name (some short)).entry ↔
      lowered short.text = lowered name.last.text := by
  simp only [Import.entry, Import.short, Import.full, Option.some.injEq, Prod.mk.injEq, and_true,
    Option.getD_none, Option.getD_some, String.ofList_inj]
  exact eq_comm

include hroot in
/-- The word before an alias has to stand alone. -/
theorem importOf?_unseen {a : Alias} (hapart : a.before.Apart) (hunseen : ¬a.Seen) (tail : List Char) :
    importOf? (root ++ (name.text ++ (a.text ++ tail))) = some (Import.mk name none).entry := by
  rw [Alias.text, a.before.text_eq]
  simp only [List.append_assoc]
  refine importOf?_apart hroot name a.before.lead.blanks hapart ?_
  by_cases hclear : a.before.Clear
  · have htouch : ¬a.after.Apart := fun h => hunseen ⟨hclear, h⟩
    obtain ⟨c, rest, hnoted, hc⟩ := a.after.noted_of_not_clear fun h => htouch (a.after.apart_of_clear h)
    have hafter : a.after.text = c :: rest := by
      rw [a.after.text_eq, not_not.mp htouch, hnoted, List.nil_append]
    obtain ⟨more, _, hwords⟩ := blankWords_glued
      (fun x hx => isBlank_of_isSegmentChar (a.keyword.as_chars x hx)) (isBlank_of_isNote hc)
      (rest ++ (a.short.text ++ tail))
    rw [hclear.noted_eq, hafter, List.nil_append, List.cons_append, hwords]
    rintro _ ⟨⟩ hlowered
    -- The comment is part of the word, which is too long then.
    have hlength := congrArg List.length hlowered
    have hkeyword := congrArg List.length a.keyword.spells
    simp only [length_lowered, List.length_append, List.length_cons] at hlength hkeyword
    simp at hlength hkeyword
    omega
  · exact ((a.before.noted_of_not_clear hclear).append _).head_word

include hroot in
/-- Behind the word for it, the next word is the alias. -/
theorem importOf?_seen {a : Alias} (hseen : a.Seen) {short : List Char} {more : List (List Char)}
    {tail : List Char} (hshort : blankWords (a.after.noted ++ (a.short.text ++ tail)) = short :: more) :
    importOf? (root ++ (name.text ++ (a.text ++ tail))) =
      some (String.ofList (lowered short), String.ofList name.text) := by
  obtain ⟨hclear, hafter⟩ := hseen
  have has : lowered a.keyword.text = ['a', 's'] := a.keyword.spells
  have hword : root ++ name.text ≠ [] := by simp [name.ne_nil]
  have hwords : blankWords (root ++ (name.text ++ (a.text ++ tail))) =
      (root ++ name.text) :: a.keyword.text :: short :: more := by
    rw [Alias.text, hclear.text_eq, a.after.text_eq, ← List.append_assoc]
    simp only [List.append_assoc a.before.lead.text, List.append_assoc a.keyword.text,
      List.append_assoc a.after.lead.text, List.append_assoc a.after.noted]
    rw [blankWords_append hword (rooted_not_blank hroot name) a.before.lead.blanks
        (a.before.apart_of_clear hclear),
      blankWords_append (ne_nil_of_spells a.keyword.spells (by decide))
        (fun x hx => isBlank_of_isSegmentChar (a.keyword.as_chars x hx)) a.after.lead.blanks hafter, hshort]
  unfold importOf?
  rw [hwords]
  simp [has, name.dropWhile_root hroot]

/-- The entry of an alias tells the alias. -/
theorem eq_lowered_of_entry {short : List Char} {a : Segment}
    (h : some (String.ofList (lowered short), String.ofList name.text) =
      some (Import.mk name (some a)).entry) : lowered short = lowered a.text := by
  simp only [Import.entry, Import.short, Option.getD_some, Option.some.injEq, Prod.mk.injEq] at h
  exact String.ofList_injective h.1

include hroot in
/-- A comment before an alias is read in its place. -/
theorem importOf?_alias_noted {a : Alias} (hseen : a.Seen) (hnoted : ¬a.after.Clear) (tail : List Char) :
    importOf? (root ++ (name.text ++ (a.text ++ tail))) ≠ some (Import.mk name (some a.short)).entry := by
  obtain ⟨c, rest, hrest, hc⟩ := a.after.noted_of_not_clear hnoted
  obtain ⟨tail', more, hwords⟩ := blankWords_cons (isBlank_of_isNote hc) (rest ++ (a.short.text ++ tail))
  rw [← List.cons_append, ← hrest] at hwords
  rw [importOf?_seen hroot name hseen hwords]
  intro heq
  have hlowered := eq_lowered_of_entry name heq
  obtain ⟨x, short, hshort⟩ := List.exists_cons_of_ne_nil a.short.ne_nil
  have hx : isNote x = true := by
    have hhead : c.toLower = x.toLower := by
      simpa [hshort, lowered] using congrArg List.head? hlowered
    refine isNote_of_toLower ?_
    rw [← hhead, toLower_of_isNote hc, hc]
  rw [a.legible x (hshort ▸ List.mem_cons_self)] at hx
  cases hx

include hroot in
/-- An alias right behind its word is read as it stands if no comment touches it. -/
theorem importOf?_alias_clear {a : Alias} (hseen : a.Seen) (hclear : a.after.Clear) {tail : List Char}
    {behind : Filler} (htail : Trails tail behind) :
    importOf? (root ++ (name.text ++ (a.text ++ tail))) = some (Import.mk name (some a.short)).entry ↔
      behind.SetOff := by
  have hshort : ∀ x ∈ a.short.text, isBlank x = false :=
    fun x hx => isBlank_of_isSegmentChar (a.short.chars x hx)
  have hnoted := hclear.noted_eq
  rcases htail.words a.short.ne_nil hshort with ⟨hsetOff, more, hwords, -⟩ | ⟨htouch, c, rest, rfl, hc⟩
  · rw [importOf?_seen hroot name hseen (by rw [hnoted, List.nil_append, hwords])]
    exact iff_of_true rfl hsetOff
  · obtain ⟨tail', more, hwords⟩ := blankWords_glued hshort (isBlank_of_isNote hc) rest
    rw [importOf?_seen hroot name hseen (by rw [hnoted, List.nil_append, hwords])]
    refine iff_of_false (fun heq => ?_) htouch
    have hlength := congrArg List.length (eq_lowered_of_entry name heq)
    simp [length_lowered] at hlength

include hroot in
/-- A clause is read right if its alias is, or is not missed. -/
theorem importOf?_clause_iff (hlegible : Legible name.text) (alias? : Option Alias) {tail : List Char}
    {behind : Filler} (htail : Trails tail behind) :
    importOf? (root ++ (name.text ++ (aliasText alias? ++ tail))) =
      some (Import.mk name (alias?.map (·.short))).entry ↔ AliasKept name.last alias? behind := by
  cases alias? with
  | none => exact importOf?_single_iff hroot name hlegible htail
  | some a =>
    simp only [aliasText, Option.map_some]
    by_cases hapart : a.before.Apart
    · by_cases hseen : a.Seen
      · have hkept : AliasKept name.last (some a) behind ↔ a.after.Clear ∧ behind.SetOff := by
          simp [AliasKept, hapart, hseen]
        rw [hkept]
        by_cases hclear : a.after.Clear
        · simpa [hclear] using importOf?_alias_clear hroot name hseen hclear htail
        · exact iff_of_false (importOf?_alias_noted hroot name hseen hclear tail) fun h => hclear h.1
      · rw [importOf?_unseen hroot name hapart hseen, entry_without_alias]
        simp [AliasKept, hapart, hseen]
    · have hnoted := a.before.noted_of_not_clear fun h => hapart (a.before.apart_of_clear h)
      have hspoiled := spoiled_name hroot name
        (hnoted.append (a.keyword.text ++ (a.after.text ++ (a.short.text ++ tail))))
      refine iff_of_false ?_ fun h => hapart h.1
      rw [Alias.text, a.before.text_eq, not_not.mp hapart]
      simpa using importOf?_ne_of_spoiled hspoiled hlegible (some a.short)

end Commented

end UseSyntax
end FacadeStubs
