import FacadeStubs.Proofs.Names.NotedClauses

/-!
# Reading lists with comments

What is read from a text, as a list of entries, and from a list of items whose comments hold no comma.
Each item is read as at least what is expected of it, so a list is read right only if each item is.

* `addUse?_eq_iff`: two texts do the same to a scope if the same is read from them;
* `Commented.pieces_list`: a list is cut at its commas;
* `Commented.flatMap_stretches`: a list is read right if each of its items is;
* `Commented.listEntries_eq_iff`: the same for a list of names.
-/
namespace FacadeStubs

namespace UseSyntax

/-! ## What is read from a text -/

/-- The imports that are read from a text. -/
def entries? (text : String) : Option (List (String × String)) :=
  (useClauses? text).map fun clauses => clauses.filterMap importOf?

theorem foldl_addClause_filterMap (clauses : List (List Char)) (scope : NameScope) :
    clauses.foldl NameScope.addClause scope =
      { scope with imports := (clauses.filterMap importOf?).reverse ++ scope.imports } := by
  induction clauses generalizing scope with
  | nil => rfl
  | cons clause clauses ih =>
    rw [List.foldl_cons, ih, NameScope.addClause]
    cases h : importOf? clause <;> simp [h]

theorem addUse?_eq_entries (scope : NameScope) (text : String) :
    scope.addUse? text = (entries? text).map fun entries =>
      { scope with imports := entries.reverse ++ scope.imports } := by
  rw [NameScope.addUse?, entries?, Option.map_map]
  congr 1
  funext clauses
  exact foldl_addClause_filterMap clauses scope

/-- Two texts do the same to a scope if the same is read from them. -/
theorem addUse?_eq_iff (scope : NameScope) (s t : String) :
    scope.addUse? s = scope.addUse? t ↔ entries? s = entries? t := by
  rw [addUse?_eq_entries, addUse?_eq_entries]
  refine ⟨fun h => ?_, fun h => by rw [h]⟩
  refine Option.map_injective (fun a b hab => ?_) h
  simpa using congrArg NameScope.imports hab

/-- What is left of a text without its keyword, its end and the blanks. -/
def useContent (text : String) : List Char :=
  let whole := trimBlanks text.toList
  trimBlanks (dropEndWhile (· == ';') (trimBlanks ((afterKeyword? "use" whole).getD whole)))

/-- What is read from a list of names. -/
def listEntries (text : List Char) : List (String × String) :=
  (pieces ',' text).flatMap fun piece => (importOf? piece).toList

/-- What is read from a member of a group. -/
def memberEntries (front piece : List Char) : List (String × String) :=
  let member := trimBlanks piece
  if member.isEmpty || importsNoClass member then [] else (importOf? (front ++ '\\' :: member)).toList

theorem filterMap_list (text : List Char) :
    (((pieces ',' text).map trimBlanks).filter (!·.isEmpty)).filterMap importOf? = listEntries text := by
  unfold listEntries
  induction pieces ',' text with
  | nil => rfl
  | cons piece rest ih =>
    rw [List.map_cons, List.filter_cons, List.flatMap_cons, ← ih, ← importOf?_trimBlanks piece]
    split
    · cases h : importOf? (trimBlanks piece) <;> simp [h]
    · rename_i hempty
      have hnil : trimBlanks piece = [] := by simpa using hempty
      simp [hnil, importOf?, blankWords, wordsFrom]

theorem filterMap_groupClauses (front text : List Char) :
    (groupClauses front text).filterMap importOf? = (pieces ',' text).flatMap (memberEntries front) := by
  unfold groupClauses
  induction pieces ',' text with
  | nil => rfl
  | cons piece rest ih =>
    rw [List.map_cons, List.filter_cons, List.flatMap_cons, ← ih, memberEntries]
    cases (trimBlanks piece).isEmpty <;> cases importsNoClass (trimBlanks piece) <;>
      cases h : importOf? (front ++ '\\' :: trimBlanks piece) <;> simp [h]

/-! ## Lists -/

namespace Commented

variable {α : Type}

theorem Listed.fillers_cons (itemFillers : α → List Filler) (first next : α) (before after : Filler)
    (rest : List (Filler × Filler × α)) (trailing? : Option Filler) :
    Listed.fillers itemFillers ⟨first, (before, after, next) :: rest, trailing?⟩ =
      itemFillers first ++ before :: after :: Listed.fillers itemFillers ⟨next, rest, trailing?⟩ := by
  simp [Listed.fillers]

/-- What stands between the commas of a list. -/
def stretches (write : α → List Char) (trailing? : Option Filler) (tail : List Char) :
    List Char → α → List (Filler × Filler × α) → List (List Char)
  | head, item, [] =>
    match trailing? with
    | none => [head ++ (write item ++ tail)]
    | some before => [head ++ (write item ++ before.text), tail]
  | head, item, (before, after, next) :: rest =>
    (head ++ (write item ++ before.text)) :: stretches write trailing? tail after.text next rest

/-- A list without commas in its items and fillers is cut at its commas. -/
theorem pieces_list {write : α → List Char} {itemFillers : α → List Filler}
    (hwrite : ∀ item, (∀ f ∈ itemFillers item, f.Quiet) → ',' ∉ write item) {list : Listed α}
    (hquiet : ∀ f ∈ list.fillers itemFillers, f.Quiet) {head tail : List Char} (hhead : ',' ∉ head)
    (htail : ',' ∉ tail) :
    pieces ',' (head ++ (list.text write ++ tail)) =
      stretches write list.trailing? tail head list.first list.rest := by
  obtain ⟨first, rest, trailing?⟩ := list
  have hcomma : ∀ {f : Filler}, f.Quiet → ',' ∉ f.text := fun h => h.not_mem List.mem_cons_self
  induction rest generalizing head first with
  | nil =>
    have hfirst := hwrite first fun f hf => hquiet f (by simp [Listed.fillers, hf])
    cases trailing? with
    | none =>
      have hsingle : ',' ∉ head ++ (write first ++ tail) := by simp [hhead, hfirst, htail]
      simp only [Listed.text, Listed.restText, Listed.trailingText, List.flatMap_nil, List.append_nil,
        stretches]
      exact pieces_single hsingle
    | some before =>
      have hbefore := hcomma (hquiet before (by simp [Listed.fillers]))
      have hfront : ',' ∉ head ++ (write first ++ before.text) := by simp [hhead, hfirst, hbefore]
      have hcut := pieces_append tail hfront
      rw [pieces_single htail] at hcut
      simpa [Listed.text, Listed.restText, Listed.trailingText, stretches] using hcut
  | cons entry rest ih =>
    obtain ⟨before, after, next⟩ := entry
    rw [Listed.fillers_cons] at hquiet
    simp only [List.forall_mem_append, List.forall_mem_cons] at hquiet
    obtain ⟨hfirst, hbefore, hafter, hrest⟩ := hquiet
    have hfront : ',' ∉ head ++ (write first ++ before.text) := by
      simp [hhead, hwrite first hfirst, hcomma hbefore]
    have hcut := pieces_append (after.text ++ (Listed.text write ⟨next, rest, trailing?⟩ ++ tail)) hfront
    rw [ih (hcomma hafter) next hrest] at hcut
    simpa [Listed.text, Listed.restText, stretches] using hcut

/-- What is read from a list is what is expected of its items if each is read right. No item reads as
less than is expected, so that nothing makes up for another. -/
theorem flatMap_stretches {β : Type} {write : α → List Char} {read : List Char → List β}
    {expected : α → List β} {P : Filler → α → Filler → Prop}
    (hitem : ∀ {head tail : List Char} {opening behind : Filler} (item : α), Leads head opening →
      Trails tail behind → (expected item).length ≤ (read (head ++ (write item ++ tail))).length ∧
        (read (head ++ (write item ++ tail)) = expected item ↔ P opening item behind))
    (hleft : ∀ {tail : List Char} {closing : Filler}, Trails tail closing →
      (read tail = [] ↔ closing.Clear))
    (trailing? : Option Filler) {tail : List Char} {closing : Filler} (htail : Trails tail closing)
    {head : List Char} {opening : Filler} (hhead : Leads head opening) (first : α)
    (rest : List (Filler × Filler × α)) :
    ((first :: rest.map (·.2.2)).flatMap expected).length ≤
        ((stretches write trailing? tail head first rest).flatMap read).length ∧
      ((stretches write trailing? tail head first rest).flatMap read =
          (first :: rest.map (·.2.2)).flatMap expected ↔
        everyFrom P trailing? closing opening first rest) := by
  induction rest generalizing head opening first with
  | nil =>
    cases trailing? with
    | none =>
      have h := hitem first hhead htail
      simpa [stretches, everyFrom] using h
    | some before =>
      obtain ⟨hlength, hread⟩ := hitem first hhead before.trails
      simp only [stretches, everyFrom, List.map_nil, List.flatMap_cons, List.flatMap_nil, List.append_nil,
        List.length_append]
      refine ⟨by omega, ?_⟩
      rw [← hread, ← hleft htail]
      constructor
      · intro h
        have hlengths := congrArg List.length h
        rw [List.length_append] at hlengths
        have hnil : read tail = [] := List.length_eq_zero_iff.mp (by omega)
        rw [hnil, List.append_nil] at h
        exact ⟨h, hnil⟩
      · rintro ⟨hfirst, hnil⟩
        rw [hfirst, hnil, List.append_nil]
  | cons entry rest ih =>
    obtain ⟨before, after, next⟩ := entry
    obtain ⟨hlength, hread⟩ := hitem first hhead before.trails
    obtain ⟨hlengths, hreads⟩ := ih after.leads next
    simp only [stretches, everyFrom, List.map_cons, List.flatMap_cons (x := first),
      List.flatMap_cons (x := head ++ (write first ++ before.text)), List.length_append]
    refine ⟨by omega, ?_⟩
    rw [← hread, ← hreads]
    constructor
    · intro h
      have htotal := congrArg List.length h
      simp only [List.length_append] at htotal
      exact List.append_inj h (by omega)
    · rintro ⟨hfirst, hrest⟩
      rw [hfirst, hrest]

/-! ## Marks -/

section Marks

variable {mark : Char} (hmark : mark ∈ [',', '\x7b', '\x7d'])

include hmark in
theorem not_mem_of_unmarked {text : List Char} (h : Unmarked text) : mark ∉ text := by
  rw [List.mem_cons] at hmark
  exact h.not_mem (List.mem_cons.mpr (hmark.imp_right (List.mem_cons_of_mem _)))

include hmark in
theorem aliasText_not_mem : ∀ {alias? : Option Alias}, (∀ f ∈ aliasFillers alias?, f.Quiet) →
    mark ∉ aliasText alias?
  | none, _ => by simp [aliasText]
  | some a, h => by
    simp only [aliasFillers, Alias.fillers, List.forall_mem_cons] at h
    simp [aliasText, Alias.text, h.1.not_mem hmark, h.2.1.not_mem hmark,
      not_mem_of_unmarked hmark (unmarked_of_chars a.keyword.as_chars),
      not_mem_of_unmarked hmark (unmarked_of_chars a.short.chars)]

theorem Announcement.chars (a : Announcement) : ∀ c ∈ a.text, isSegmentChar c = true :=
  a.plain.chars

include hmark in
theorem announcedText_not_mem : ∀ {announced? : Option Announcement},
    (∀ f ∈ announcedFillers announced?, f.Quiet) → mark ∉ announcedText announced?
  | none, _ => by simp [announcedText]
  | some a, h => by
    simp only [announcedFillers, List.forall_mem_cons] at h
    simp [announcedText, h.1.not_mem hmark, not_mem_of_unmarked hmark (unmarked_of_chars a.chars)]

include hmark in
theorem Clause.not_mem_text {clause : Clause} (h : ∀ f ∈ clause.fillers, f.Quiet) :
    mark ∉ clause.text := by
  simp [Clause.text, not_mem_of_unmarked hmark clause.imported.unmarked, aliasText_not_mem hmark h]

include hmark in
theorem Member.not_mem_text {member : Member} (h : ∀ f ∈ member.fillers, f.Quiet) :
    mark ∉ member.text := by
  obtain ⟨hannounced, halias⟩ := List.forall_mem_append.mp h
  simp [Member.text, not_mem_of_unmarked hmark member.name.unmarked, aliasText_not_mem hmark halias,
    announcedText_not_mem hmark hannounced]

end Marks

theorem Listed.not_mem_text {mark : Char} (hmark : mark ∈ ['\x7b', '\x7d']) {write : α → List Char}
    {itemFillers : α → List Filler}
    (hwrite : ∀ item, (∀ f ∈ itemFillers item, f.Quiet) → mark ∉ write item) {list : Listed α}
    (h : ∀ f ∈ list.fillers itemFillers, f.Quiet) : mark ∉ list.text write := by
  have hcomma : mark ≠ ',' := by
    rintro rfl
    revert hmark
    decide
  have hfiller : ∀ {f : Filler}, f.Quiet → mark ∉ f.text :=
    fun h => h.not_mem (List.mem_cons_of_mem _ hmark)
  obtain ⟨first, rest, trailing?⟩ := list
  induction rest generalizing first with
  | nil =>
    obtain ⟨hfirst, htrailing⟩ := List.forall_mem_append.mp h
    have hlast : mark ∉ trailingText trailing? := by
      cases trailing? with
      | none => simp [trailingText]
      | some before => simp [trailingText, hcomma, hfiller (htrailing before (by simp))]
    simp [text, restText, hlast, hwrite first (by simpa using hfirst)]
  | cons entry rest ih =>
    obtain ⟨before, after, next⟩ := entry
    rw [fillers_cons] at h
    simp only [List.forall_mem_append, List.forall_mem_cons] at h
    have hrest := ih next h.2.2.2
    simp only [text, restText, List.flatMap_cons] at hrest ⊢
    simp only [List.mem_append, List.mem_cons, not_or] at hrest ⊢
    exact ⟨hwrite first h.1, ⟨⟨hfiller h.2.1, hcomma, hfiller h.2.2.1, hrest.1⟩, hrest.2.1⟩, hrest.2.2⟩

/-! ## Names in a list -/

theorem importOf?_eq_none {text : List Char} (h : Blanks text) : importOf? text = none := by
  have hwords : blankWords text = [] := by
    simpa [blankWords, wordsFrom] using wordsFrom_blanks h []
  unfold importOf?
  rw [hwords]

theorem importOf?_isSome {text : List Char} {c : Char} (hmem : c ∈ text) (hc : isBlank c = false) :
    ∃ entry, importOf? text = some entry := by
  have hrest : c ∈ text.dropWhile isBlank := mem_dropWhile_of_not hmem hc
  obtain ⟨first, rest, hfirst⟩ := List.exists_cons_of_ne_nil (List.ne_nil_of_mem hrest)
  have hblank : isBlank first = false := by
    simpa [hfirst] using List.head?_dropWhile_not isBlank text
  obtain ⟨tail, more, hwords⟩ := blankWords_cons hblank rest
  obtain ⟨entry, hentry, -⟩ := importOf?_word hwords
  have hblanks : Blanks (text.takeWhile isBlank) := fun x hx => List.mem_takeWhile_imp hx
  have hsame := importOf?_blanks hblanks (text.dropWhile isBlank)
  rw [List.takeWhile_append_dropWhile, hfirst, hentry] at hsame
  exact ⟨entry, hsame⟩

/-- What is expected of a clause. -/
def Clause.entry (clause : Clause) : String × String :=
  (Import.mk clause.imported.name (clause.alias?.map (·.short))).entry

theorem Clause.importOf?_iff (clause : Clause) {head tail : List Char} {opening behind : Filler}
    (hhead : Leads head opening) (htail : Trails tail behind) :
    importOf? (head ++ (clause.text ++ tail)) = some clause.entry ↔ clause.Kept opening behind := by
  unfold Clause.Kept
  by_cases hclear : opening.Clear
  · have h := importOf?_clause_iff clause.imported.root_eq clause.imported.name clause.legible
      clause.alias? htail
    rw [importOf?_blanks (hhead.1 hclear)]
    simpa [Clause.text, ImportedName.text, Clause.entry, hclear] using h
  · exact iff_of_false (importOf?_ne_of_spoiled ((hhead.2 hclear).append _) clause.legible _)
      fun h => hclear h.1

theorem ImportedName.mem_not_blank (n : ImportedName) : ∃ c ∈ n.text, isBlank c = false := by
  obtain ⟨c, hc, hblank⟩ := n.solid.begins
  exact ⟨c, List.mem_of_head? hc, hblank⟩

/-- A list of names is read right if each of its clauses is. -/
theorem listEntries_eq_iff {clauses : Listed Clause} (hquiet : ∀ f ∈ clauses.fillers Clause.fillers, f.Quiet)
    {head tail : List Char} {opening ending : Filler} (hhead : Leads head opening)
    (htail : Trails tail ending) (hheadComma : ',' ∉ head) (htailComma : ',' ∉ tail) :
    listEntries (head ++ (clauses.text Clause.text ++ tail)) =
        (clauses.first :: clauses.rest.map (·.2.2)).map Clause.entry ↔
      (Body.names clauses).Undisturbed opening ending := by
  have hpieces := pieces_list (fun _ h => Clause.not_mem_text List.mem_cons_self h) hquiet hheadComma
    htailComma
  have hsingle : (clauses.first :: clauses.rest.map (·.2.2)).map Clause.entry =
      (clauses.first :: clauses.rest.map (·.2.2)).flatMap fun clause => [clause.entry] :=
    List.map_eq_flatMap ..
  rw [listEntries, hpieces, hsingle]
  refine (flatMap_stretches ?_ ?_ clauses.trailing? htail hhead clauses.first clauses.rest).2
  · intro head tail opening behind clause hhead htail
    obtain ⟨c, hmem, hc⟩ := ImportedName.mem_not_blank clause.imported
    have hmem' : c ∈ head ++ (clause.text ++ tail) := by simp [Clause.text, hmem]
    obtain ⟨entry, hentry⟩ := importOf?_isSome hmem' hc
    rw [← Clause.importOf?_iff clause hhead htail, hentry]
    simp
  · rintro tail closing ⟨g, rest, rfl, hg, hclear, hnoted⟩
    by_cases hclosing : closing.Clear
    · rw [hclear hclosing, List.append_nil, importOf?_eq_none hg]
      simp [hclosing]
    · obtain ⟨⟨c, rest, rfl, hc⟩, -⟩ := hnoted hclosing
      have hmem : c ∈ g ++ c :: rest := by simp
      obtain ⟨entry, hentry⟩ := importOf?_isSome hmem (isBlank_of_isNote hc)
      simp [hentry, hclosing]

end Commented

end UseSyntax
end FacadeStubs
