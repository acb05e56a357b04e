import FacadeStubs.Proofs.Text.Words

/-!
# Import declarations in any layout

The import declarations of a file, as syntax with its layout: which blanks stand where, in which letter
case the keywords are written, whether a list ends with a comma. `UseDeclaration.text` writes a
declaration down and `UseDeclaration.imports` says which classes it imports under which names;
neither knows how the text is read.

* `Listed.members_text`: a list in any layout is cut into its items at its commas;
* `QualifiedName.lastSegment_text`, `QualifiedName.dropWhile_root`: a name as text;
* `Body.solid`, `Body.no_semicolon`: what trimming leaves of a declaration.
-/
namespace FacadeStubs

namespace UseSyntax

/-! ## Words and gaps -/

/-- A character of a name: no blank, and no mark that stands between names. -/
def isSegmentChar (c : Char) : Bool :=
  !isBlank c && !(['\\', ',', ';', '\x7b', '\x7d'].contains c)

/-- Where blanks may stand. -/
structure Gap where
  text : List Char
  blanks : Blanks text

/-- Where blanks must stand. -/
structure Space extends Gap where
  ne_nil : text ≠ []

/-- A name without backslashes. -/
structure Segment where
  text : List Char
  ne_nil : text ≠ []
  chars : ∀ c ∈ text, isSegmentChar c = true

/-- A keyword in any letter case. -/
structure Keyword (keyword : String) where
  text : List Char
  spells : lowered text = keyword.toList

/-- The word that makes an import one of functions or constants, and the blanks behind it. -/
structure Announcement where
  text : List Char
  spells : lowered text = "function".toList ∨ lowered text = "const".toList
  space : Space

/-- A name with backslashes between its segments. -/
structure QualifiedName where
  first : Segment
  rest : List Segment

namespace QualifiedName

def text (name : QualifiedName) : List Char :=
  name.first.text ++ name.rest.flatMap fun segment => '\\' :: segment.text

/-- The segment behind the last backslash. -/
def last (name : QualifiedName) : Segment := name.rest.getLast?.getD name.first

/-- A name below another one. -/
def below (front name : QualifiedName) : QualifiedName :=
  { first := front.first, rest := front.rest ++ name.first :: name.rest }

/-- A name that is not a word of announcement. -/
def Free (name : QualifiedName) : Prop :=
  name.rest = [] →
    lowered name.first.text ≠ "function".toList ∧ lowered name.first.text ≠ "const".toList

end QualifiedName

/-! ## Declarations -/

/-- The other name of an import, with the layout around it. -/
structure Alias where
  before : Space
  keyword : Keyword "as"
  after : Space
  short : Segment

def Alias.text (a : Alias) : List Char :=
  a.before.text ++ (a.keyword.text ++ (a.after.text ++ a.short.text))

/-- A name that may begin with a backslash. -/
structure ImportedName where
  rooted : Bool
  name : QualifiedName
  free : rooted = false → name.Free

/-- The backslash in front of a name. -/
def ImportedName.root (n : ImportedName) : List Char := if n.rooted then ['\\'] else []

def ImportedName.text (n : ImportedName) : List Char := n.root ++ n.name.text

/-- A name to import, with its other name if it has one. -/
structure Clause where
  imported : ImportedName
  alias? : Option Alias

/-- The layout of an alias that may be missing. -/
def aliasText : Option Alias → List Char
  | none => []
  | some a => a.text

def Clause.text (clause : Clause) : List Char := clause.imported.text ++ aliasText clause.alias?

/-- A member between braces, announced as a function or a constant or not. -/
structure Member where
  announced? : Option Announcement
  name : QualifiedName
  free : name.Free
  alias? : Option Alias

/-- The layout of an announcement that may be missing. -/
def announcedText : Option Announcement → List Char
  | none => []
  | some announced => announced.text ++ announced.space.text

def Member.text (member : Member) : List Char :=
  announcedText member.announced? ++ (member.name.text ++ aliasText member.alias?)

/-- Items with commas between them. A pair of gaps stands around each comma; the last comma may have
no item behind it. -/
structure Listed (α : Type) where
  first : α
  rest : List (Gap × Gap × α)
  trailing? : Option Gap

namespace Listed

variable {α : Type}

def items (list : Listed α) : List α := list.first :: list.rest.map (·.2.2)

/-- The items behind the first one, with the commas before them. -/
def restText (write : α → List Char) (rest : List (Gap × Gap × α)) : List Char :=
  rest.flatMap fun (before, after, item) => before.text ++ ',' :: (after.text ++ write item)

def trailingText : Option Gap → List Char
  | none => []
  | some before => before.text ++ [',']

def text (write : α → List Char) (list : Listed α) : List Char :=
  write list.first ++ (restText write list.rest ++ trailingText list.trailing?)

end Listed

/-- What a declaration imports: names in a list, or members between braces below a common front. The
gaps of a group stand before and behind the backslash and inside the braces. -/
inductive Body where
  | names (clauses : Listed Clause)
  | group (front : ImportedName) (before after inner : Gap) (members : Listed Member) (closing : Gap)

def Body.text : Body → List Char
  | .names clauses => clauses.text Clause.text
  | .group front before after inner members closing =>
    front.text ++ (before.text ++ '\\' :: (after.text ++
      '\x7b' :: (inner.text ++ (members.text Member.text ++ (closing.text ++ ['\x7d'])))))

/-- An import declaration with its layout. -/
structure UseDeclaration where
  before : Gap
  keyword : Keyword "use"
  space : Space
  announced? : Option Announcement
  body : Body
  ending : Gap
  semicolon : Bool
  after : Gap

/-- The end of a declaration behind its body. -/
def UseDeclaration.endText (declaration : UseDeclaration) : List Char :=
  declaration.ending.text ++
    (if declaration.semicolon then ';' :: declaration.after.text else declaration.after.text)

def UseDeclaration.text (declaration : UseDeclaration) : String :=
  String.ofList (declaration.before.text ++ (declaration.keyword.text ++ (declaration.space.text ++
    (announcedText declaration.announced? ++ (declaration.body.text ++ declaration.endText)))))

/-! ## What is imported -/

/-- A class that is imported, under the last segment of its name or another name. -/
structure Import where
  name : QualifiedName
  alias? : Option Segment

namespace Import

/-- The name that the class goes by. -/
def short (i : Import) : List Char := (i.alias?.getD i.name.last).text

def full (i : Import) : String := String.ofList i.name.text

/-- The import as a scope keeps it. -/
def entry (i : Import) : String × String := (String.ofList (lowered i.short), i.full)

end Import

/-- The classes among the members of a group. -/
def classMembers (members : Listed Member) : List Member :=
  members.items.filter (·.announced?.isNone)

namespace Body

/-- The classes that a body imports. -/
def imports : Body → List Import
  | .names clauses => clauses.items.map fun c => ⟨c.imported.name, c.alias?.map (·.short)⟩
  | .group front _ _ _ members _ =>
    (classMembers members).map fun m => ⟨front.name.below m.name, m.alias?.map (·.short)⟩

/-- No gap keeps the classes between braces from the name in front of them. -/
def Tight : Body → Prop
  | .names _ => True
  | .group _ before _ _ members _ => before.text = [] ∨ classMembers members = []

/-- The imports that are read from a body. Behind a gap the rest of a clause is not part of its name. -/
def read : Body → List Import
  | .names clauses => (names clauses).imports
  | .group front before after inner members closing =>
    if before.text = [] then (group front before after inner members closing).imports
    else (classMembers members).map fun _ => ⟨front.name, none⟩

end Body

namespace UseDeclaration

/-- The classes that a declaration imports; an announced declaration imports none. -/
def imports (declaration : UseDeclaration) : List Import :=
  if declaration.announced?.isSome then [] else declaration.body.imports

/-- The imports that are read from a declaration. -/
def read (declaration : UseDeclaration) : List Import :=
  if declaration.announced?.isSome then [] else declaration.body.read

/-- No gap keeps the classes that a declaration imports from their name. -/
def Tight (declaration : UseDeclaration) : Prop :=
  declaration.announced? = none → declaration.body.Tight

end UseDeclaration

/-! ## Characters -/

theorem isBlank_of_isSegmentChar {c : Char} (h : isSegmentChar c = true) : isBlank c = false := by
  simp only [isSegmentChar, Bool.and_eq_true, Bool.not_eq_true'] at h
  exact h.1

/-- The marks do not stand in names. -/
theorem ne_of_isSegmentChar {c : Char} (h : isSegmentChar c = true) :
    c ∉ ['\\', ',', ';', '\x7b', '\x7d'] := by
  simp only [isSegmentChar, Bool.and_eq_true, Bool.not_eq_true', List.contains_eq_mem,
    decide_eq_false_iff_not] at h
  exact h.2

theorem isSegmentChar_of_isBlank {c : Char} (h : isBlank c = true) : isSegmentChar c = false := by
  simp [isSegmentChar, h]

/-- Lowering does not make a character one of a name: it only changes letters. -/
theorem isSegmentChar_of_toLower {c : Char} (h : isSegmentChar c.toLower = true) :
    isSegmentChar c = true := by
  by_cases hupper : 65 ≤ c.toNat ∧ c.toNat ≤ 90
  · have hblank : isBlank c = false := by
      simp only [isBlank]
      simp
      omega
    have hmarks : ∀ mark ∈ ['\\', ',', ';', '\x7b', '\x7d'],
        ¬(65 ≤ mark.toNat ∧ mark.toNat ≤ 90) := by simp
    simp only [isSegmentChar, hblank, Bool.not_false, Bool.true_and, Bool.not_eq_true',
      List.contains_eq_mem, decide_eq_false_iff_not]
    exact fun hmem => hmarks c hmem hupper
  · have hsame : c.toLower = c := dif_neg hupper
    rwa [hsame] at h

/-- A word that spells a keyword is made of characters of names. -/
theorem chars_of_spells {text : List Char} {keyword : String} (h : lowered text = keyword.toList)
    (hkeyword : keyword.toList.all isSegmentChar = true) : ∀ c ∈ text, isSegmentChar c = true := by
  intro c hc
  refine isSegmentChar_of_toLower (List.all_eq_true.mp hkeyword _ ?_)
  rw [← h]
  exact List.mem_map_of_mem hc

/-- A text without the marks that stand around clauses. -/
def Unmarked (text : List Char) : Prop := ∀ c ∈ text, c ∉ [',', ';', '\x7b', '\x7d']

theorem Unmarked.append {s t : List Char} (hs : Unmarked s) (ht : Unmarked t) : Unmarked (s ++ t) := by
  intro c hc
  rcases List.mem_append.mp hc with hc | hc
  · exact hs c hc
  · exact ht c hc

theorem Unmarked.not_mem {text : List Char} (h : Unmarked text) {mark : Char}
    (hmark : mark ∈ [',', ';', '\x7b', '\x7d']) : mark ∉ text :=
  fun hmem => h mark hmem hmark

theorem unmarked_of_chars {text : List Char} (h : ∀ c ∈ text, isSegmentChar c = true) :
    Unmarked text :=
  fun c hc hmem => ne_of_isSegmentChar (h c hc) (List.mem_cons_of_mem _ hmem)

theorem Gap.unmarked (gap : Gap) : Unmarked gap.text := by
  intro c hc hmem
  have hmarks : ∀ mark ∈ [',', ';', '\x7b', '\x7d'], isBlank mark = false := by simp [isBlank]
  have hblank := gap.blanks c hc
  rw [hmarks c hmem] at hblank
  cases hblank

theorem Keyword.as_chars (word : Keyword "as") : ∀ c ∈ word.text, isSegmentChar c = true :=
  chars_of_spells word.spells (by decide)

theorem Announcement.chars (announced : Announcement) :
    ∀ c ∈ announced.text, isSegmentChar c = true := by
  rcases announced.spells with h | h <;> exact chars_of_spells h (by decide)

theorem ne_nil_of_spells {text : List Char} {keyword : String} (h : lowered text = keyword.toList)
    (hkeyword : keyword.toList ≠ []) : text ≠ [] := by
  rintro rfl
  exact hkeyword h.symm

theorem Announcement.ne_nil (announced : Announcement) : announced.text ≠ [] := by
  rcases announced.spells with h | h <;> exact ne_nil_of_spells h (by decide)

theorem solid_of_chars {text : List Char} (hne : text ≠ []) (h : ∀ c ∈ text, isSegmentChar c = true) :
    Solid text :=
  solid_of_all hne fun c hc => isBlank_of_isSegmentChar (h c hc)

/-! ## Names as text -/

namespace QualifiedName

variable (name : QualifiedName)

theorem chars : ∀ c ∈ name.text, isSegmentChar c = true ∨ c = '\\' := by
  intro c hc
  rcases List.mem_append.mp hc with hc | hc
  · exact Or.inl (name.first.chars c hc)
  · obtain ⟨segment, -, hc⟩ := List.mem_flatMap.mp hc
    rcases List.mem_cons.mp hc with rfl | hc
    · exact Or.inr rfl
    · exact Or.inl (segment.chars c hc)

theorem not_blank : ∀ c ∈ name.text, isBlank c = false := by
  intro c hc
  rcases name.chars c hc with h | rfl
  · exact isBlank_of_isSegmentChar h
  · decide

theorem unmarked : Unmarked name.text := by
  intro c hc
  rcases name.chars c hc with h | rfl
  · exact fun hmem => ne_of_isSegmentChar h (List.mem_cons_of_mem _ hmem)
  · decide

theorem ne_nil : name.text ≠ [] := by
  simp [text, name.first.ne_nil]

theorem text_below (front : QualifiedName) : (front.below name).text = front.text ++ '\\' :: name.text := by
  simp [text, below]

/-- A name begins with a character of its first segment. -/
theorem head?_text : ∃ c, name.text.head? = some c ∧ isSegmentChar c = true := by
  obtain ⟨c, rest, hfirst⟩ := List.exists_cons_of_ne_nil name.first.ne_nil
  refine ⟨c, ?_, name.first.chars c (hfirst ▸ List.mem_cons_self)⟩
  rw [text, hfirst]
  rfl

/-- A name ends with its last segment, behind nothing or a backslash. -/
theorem text_eq_last : name.text = name.last.text ∨ ∃ front, name.text = front ++ '\\' :: name.last.text := by
  rcases List.eq_nil_or_concat name.rest with hrest | ⟨front, segment, hrest⟩
  · left
    simp [text, last, hrest]
  · right
    refine ⟨name.first.text ++ front.flatMap fun segment => '\\' :: segment.text, ?_⟩
    simp [text, last, hrest]

theorem getLast?_text : ∃ c, name.text.getLast? = some c ∧ isSegmentChar c = true := by
  have hlast := List.getLast?_eq_some_getLast name.last.ne_nil
  refine ⟨name.last.text.getLast name.last.ne_nil, ?_, name.last.chars _ (List.getLast_mem _)⟩
  rcases name.text_eq_last with h | ⟨front, h⟩
  · rw [h, hlast]
  · rw [h, List.getLast?_append, List.getLast?_cons, hlast]
    rfl

theorem lastSegment_text : lastSegment (String.ofList name.text) = String.ofList name.last.text := by
  have hback : '\\' ∉ name.last.text :=
    fun hmem => ne_of_isSegmentChar (name.last.chars _ hmem) List.mem_cons_self
  rcases name.text_eq_last with h | ⟨front, h⟩
  · rw [h, lastSegment_single hback]
  · rw [h, lastSegment_append hback]

/-- The backslashes in front of a name are dropped from it. -/
theorem dropWhile_root {root : List Char} (hroot : ∀ c ∈ root, c = '\\') :
    (root ++ name.text).dropWhile (· == '\\') = name.text := by
  obtain ⟨c, hc, hsegment⟩ := name.head?_text
  obtain ⟨rest, hrest⟩ := List.head?_eq_some_iff.mp hc
  have hne : c ≠ '\\' := fun h => ne_of_isSegmentChar hsegment (h ▸ List.mem_cons_self)
  rw [List.dropWhile_append_of_pos (by simpa using hroot), hrest,
    List.dropWhile_cons_of_neg (by simpa using hne)]

end QualifiedName

theorem rooted_not_blank {root : List Char} (hroot : ∀ c ∈ root, c = '\\') (name : QualifiedName) :
    ∀ c ∈ root ++ name.text, isBlank c = false := by
  intro c hc
  rcases List.mem_append.mp hc with hc | hc
  · rw [hroot c hc]
    decide
  · exact name.not_blank c hc

namespace ImportedName

variable (n : ImportedName)

theorem root_eq : ∀ c ∈ n.root, c = '\\' := by
  intro c hc
  cases h : n.rooted <;> simp_all [root]

theorem not_blank : ∀ c ∈ n.text, isBlank c = false := rooted_not_blank n.root_eq n.name

theorem unmarked : Unmarked n.text := by
  refine Unmarked.append (fun c hc => ?_) n.name.unmarked
  rw [n.root_eq c hc]
  decide

theorem solid : Solid n.text :=
  solid_of_all (by simp [text, n.name.ne_nil]) n.not_blank

end ImportedName

/-! ## Clauses as text -/

theorem aliasText_unmarked : ∀ a : Option Alias, Unmarked (aliasText a)
  | none => fun c hc => by cases hc
  | some a => a.before.unmarked.append ((unmarked_of_chars a.keyword.as_chars).append
      (a.after.unmarked.append (unmarked_of_chars a.short.chars)))

theorem announcedText_unmarked : ∀ a : Option Announcement, Unmarked (announcedText a)
  | none => fun c hc => by cases hc
  | some a => (unmarked_of_chars a.chars).append a.space.unmarked

theorem solid_alias {t : List Char} (ht : Solid t) : ∀ a : Option Alias, Solid (t ++ aliasText a)
  | none => by simpa [aliasText] using ht
  | some a => by
    have h := ht.append (solid_of_chars a.short.ne_nil a.short.chars)
      (a.before.text ++ (a.keyword.text ++ a.after.text))
    simpa [aliasText, Alias.text] using h

theorem solid_announced {t : List Char} (ht : Solid t) :
    ∀ a : Option Announcement, Solid (announcedText a ++ t)
  | none => ht
  | some a => by
    have h := (solid_of_chars a.ne_nil a.chars).append ht a.space.text
    simpa [announcedText] using h

theorem Clause.solid (clause : Clause) : Solid clause.text :=
  solid_alias clause.imported.solid clause.alias?

theorem Clause.unmarked (clause : Clause) : Unmarked clause.text :=
  clause.imported.unmarked.append (aliasText_unmarked clause.alias?)

theorem Member.solid (member : Member) : Solid member.text :=
  solid_announced (solid_alias (solid_of_all member.name.ne_nil member.name.not_blank) _) _

theorem Member.unmarked (member : Member) : Unmarked member.text :=
  (announcedText_unmarked _).append (member.name.unmarked.append (aliasText_unmarked _))

/-! ## Lists -/

namespace Listed

variable {α : Type} {write : α → List Char}

/-- A list in any layout is cut into its items at its commas. -/
theorem members_text (hsolid : ∀ a, Solid (write a)) (hcomma : ∀ a, ',' ∉ write a) (g g' : Gap)
    (list : Listed α) :
    ((pieces ',' (g.text ++ (list.text write ++ g'.text))).map trimBlanks).filter (!·.isEmpty) =
      list.items.map write := by
  obtain ⟨first, rest, trailing?⟩ := list
  have hgap : ∀ g : Gap, ',' ∉ g.text := fun g => g.unmarked.not_mem List.mem_cons_self
  have htrim : ∀ (g g' : Gap) (a : α), trimBlanks (g.text ++ (write a ++ g'.text)) = write a :=
    fun g g' a => trimBlanks_gaps g.blanks g'.blanks (hsolid a)
  have hkept : ∀ a, (!(write a).isEmpty) = true := fun a => by simp [(hsolid a).ne_nil]
  -- The gap in front of an item is the one behind the comma before it.
  induction rest generalizing g first with
  | nil =>
    cases trailing? with
    | none =>
      have hsingle : ',' ∉ g.text ++ (write first ++ g'.text) := by
        simp [hgap, hcomma]
      simp only [text, restText, trailingText, List.flatMap_nil, List.append_nil]
      rw [pieces_single hsingle]
      simp [htrim, hkept, items]
    | some before =>
      have hfront : ',' ∉ g.text ++ (write first ++ before.text) := by
        simp [hgap, hcomma]
      have hcut := pieces_append g'.text hfront
      simp only [text, restText, trailingText, List.flatMap_nil, List.nil_append, List.append_assoc,
        List.cons_append] at hcut ⊢
      rw [hcut, pieces_single (hgap g')]
      simp [htrim, hkept, items, trimBlanks_blanks g'.blanks]
  | cons entry rest ih =>
    obtain ⟨before, after, item⟩ := entry
    have hfront : ',' ∉ g.text ++ (write first ++ before.text) := by
      simp [hgap, hcomma]
    have hcut := pieces_append
      (after.text ++ (text write ⟨item, rest, trailing?⟩ ++ g'.text)) hfront
    have hih := ih after item
    simp only [text, restText, List.flatMap_cons, List.append_assoc, List.cons_append] at hcut hih ⊢
    rw [hcut, List.map_cons, List.filter_cons, htrim, hkept, if_pos rfl, hih]
    rfl

/-- The only mark of a list is the comma. -/
theorem not_mem_text (hunmarked : ∀ a, Unmarked (write a)) {mark : Char}
    (hmark : mark ∈ [';', '\x7b', '\x7d']) (list : Listed α) : mark ∉ list.text write := by
  have hcomma : mark ≠ ',' := by
    rintro rfl
    revert hmark
    decide
  have hgap : ∀ g : Gap, mark ∉ g.text := fun g => g.unmarked.not_mem (List.mem_cons_of_mem _ hmark)
  have hitem : ∀ a, mark ∉ write a := fun a => (hunmarked a).not_mem (List.mem_cons_of_mem _ hmark)
  have htrailing : mark ∉ trailingText list.trailing? := by
    cases list.trailing? <;> simp [trailingText, hgap, hcomma]
  simp [text, restText, hitem, hgap, hcomma, htrailing]

theorem solid_text (hsolid : ∀ a, Solid (write a)) (list : Listed α) : Solid (list.text write) := by
  obtain ⟨first, rest, trailing?⟩ := list
  cases trailing? with
  | some before =>
    have hcomma : Solid [','] := solid_mark (by decide)
    simpa [text, trailingText] using (hsolid first).append hcomma (restText write rest ++ before.text)
  | none =>
    rcases List.eq_nil_or_concat rest with rfl | ⟨front, ⟨before, after, item⟩, rfl⟩
    · simpa [text, restText, trailingText] using hsolid first
    · have happend := (hsolid first).append (hsolid item)
        (restText write front ++ (before.text ++ ',' :: after.text))
      simpa [text, restText, trailingText] using happend

end Listed

namespace Body

theorem solid : ∀ body : Body, Solid body.text
  | names clauses => clauses.solid_text Clause.solid
  | group front before after inner members closing => by
    have hbrace : Solid ['\x7d'] := solid_mark (by decide)
    have h := front.solid.append hbrace (before.text ++ '\\' :: (after.text ++ '\x7b' ::
      (inner.text ++ (members.text Member.text ++ closing.text))))
    simpa [text] using h

theorem no_semicolon (body : Body) : ';' ∉ body.text := by
  have hgap : ∀ g : Gap, ';' ∉ g.text := fun g => g.unmarked.not_mem (by simp)
  cases body with
  | names clauses => exact clauses.not_mem_text Clause.unmarked (by simp)
  | group front before after inner members closing =>
    have hfront : ';' ∉ front.text := front.unmarked.not_mem (by simp)
    have hmembers : ';' ∉ members.text Member.text := members.not_mem_text Member.unmarked (by simp)
    simp [text, hgap, hfront, hmembers]

end Body

end UseSyntax

end FacadeStubs
