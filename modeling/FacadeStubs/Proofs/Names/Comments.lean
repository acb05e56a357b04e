import FacadeStubs.Proofs.Names.Reading

/-!
# Import declarations with comments

The syntax of `UseDeclaration` once more, with comments allowed wherever blanks are: a `Filler` stands
between two tokens, a name being one token. `Commented.Declaration.plain` drops the comments,
`Commented.Declaration.Undisturbed` says of a declaration where its comments stand. A comment may follow
a complete clause if a blank stands before it; in any other place it becomes part of a name, or takes
its alias away.
-/
namespace FacadeStubs

namespace UseSyntax

/-! ## Comments and fillers -/

/-- A comment: between `/*` and `*/`, or from `//` or `#` to the end of its line. -/
inductive Comment where
  | block (inside : List Char) (closed : ¬['*', '/'] <:+: inside)
  | line (slashes : Bool) (inside : List Char) (oneLine : '\n' ∉ inside)

def Comment.text : Comment → List Char
  | block inside _ => '/' :: '*' :: (inside ++ ['*', '/'])
  | line slashes inside _ => (if slashes then ['/', '/'] else ['#']) ++ (inside ++ ['\n'])

/-- A character that begins a comment. -/
def isNote (c : Char) : Bool := c == '/' || c == '#'

/-- A text in which no comment begins. -/
def Legible (text : List Char) : Prop := ∀ c ∈ text, isNote c = false

instance (text : List Char) : Decidable (Legible text) :=
  List.decidableBAll (fun c => isNote c = false) text

/-- What may stand between two tokens: comments, with blanks before each and behind the last one. -/
structure Filler where
  notes : List (Gap × Comment)
  rest : Gap

/-- What must stand between two words. -/
structure Break extends Filler where
  ne_nil : (notes.flatMap fun note => note.1.text ++ note.2.text) ++ rest.text ≠ []

namespace Filler

variable (f : Filler)

/-- Comments with the blanks before them. -/
def notesText (notes : List (Gap × Comment)) : List Char :=
  notes.flatMap fun note => note.1.text ++ note.2.text

def text : List Char := notesText f.notes ++ f.rest.text

/-- The blanks before the first comment. -/
def lead : Gap :=
  match f.notes with
  | [] => f.rest
  | (gap, _) :: _ => gap

/-- The first comment and all that follows it. -/
def noted : List Char :=
  match f.notes with
  | [] => []
  | (_, comment) :: more => comment.text ++ (notesText more ++ f.rest.text)

/-- No comment. -/
def Clear : Prop := f.notes = []

/-- A blank comes first. -/
def Apart : Prop := f.lead.text ≠ []

/-- No comment touches the token before it. -/
def SetOff : Prop := f.Clear ∨ f.Apart

/-- The blanks without the comments. -/
def gap : Gap where
  text := (f.notes.flatMap fun note => note.1.text) ++ f.rest.text
  blanks := by
    intro c hc
    rcases List.mem_append.mp hc with hc | hc
    · obtain ⟨note, -, hc⟩ := List.mem_flatMap.mp hc
      exact note.1.blanks c hc
    · exact f.rest.blanks c hc

/-- No comment holds a comma or a brace. -/
def Quiet : Prop := ∀ note ∈ f.notes, ∀ c ∈ note.2.text, c ∉ [',', '\x7b', '\x7d']

instance : Decidable f.Clear := inferInstanceAs (Decidable (f.notes = []))

instance : Decidable f.Apart := inferInstanceAs (Decidable (f.lead.text ≠ []))

instance : Decidable f.SetOff := inferInstanceAs (Decidable (f.Clear ∨ f.Apart))

instance : Decidable f.Quiet :=
  have : ∀ note : Gap × Comment, Decidable (∀ c ∈ note.2.text, c ∉ [',', '\x7b', '\x7d']) :=
    fun note => List.decidableBAll (fun c => c ∉ [',', '\x7b', '\x7d']) note.2.text
  List.decidableBAll _ f.notes

end Filler

/-- The blanks of a break without its comments, or one blank where none is left. -/
def Break.space (b : Break) : Space :=
  if h : b.toFiller.gap.text = [] then oneSpace else ⟨b.toFiller.gap, h⟩

namespace Commented

/-! ## Declarations -/

/-- The other name of an import, with what stands around it. -/
structure Alias where
  before : Break
  keyword : Keyword "as"
  after : Break
  short : Segment
  legible : Legible short.text

def Alias.text (a : Alias) : List Char :=
  a.before.text ++ (a.keyword.text ++ (a.after.text ++ a.short.text))

def Alias.plain (a : Alias) : UseSyntax.Alias := ⟨a.before.space, a.keyword, a.after.space, a.short⟩

/-- The layout of an alias that may be missing. -/
def aliasText : Option Alias → List Char
  | none => []
  | some a => a.text

/-- A name to import, with its other name if it has one. -/
structure Clause where
  imported : ImportedName
  legible : Legible imported.name.text
  alias? : Option Alias

def Clause.text (clause : Clause) : List Char := clause.imported.text ++ aliasText clause.alias?

def Clause.plain (clause : Clause) : UseSyntax.Clause := ⟨clause.imported, clause.alias?.map Alias.plain⟩

/-- The word that makes an import one of functions or constants, and what stands behind it. -/
structure Announcement where
  text : List Char
  spells : lowered text = "function".toList ∨ lowered text = "const".toList
  space : Break

def Announcement.plain (a : Announcement) : UseSyntax.Announcement := ⟨a.text, a.spells, a.space.space⟩

/-- The layout of an announcement that may be missing. -/
def announcedText : Option Announcement → List Char
  | none => []
  | some announced => announced.text ++ announced.space.text

/-- A member between braces, announced as a function or a constant or not. -/
structure Member where
  announced? : Option Announcement
  name : QualifiedName
  free : name.Free
  legible : Legible name.text
  alias? : Option Alias

def Member.text (member : Member) : List Char :=
  announcedText member.announced? ++ (member.name.text ++ aliasText member.alias?)

def Member.plain (member : Member) : UseSyntax.Member :=
  ⟨member.announced?.map Announcement.plain, member.name, member.free, member.alias?.map Alias.plain⟩

/-- Items with commas between them. A pair of fillers stands around each comma; the last comma may have
no item behind it. -/
structure Listed (α : Type) where
  first : α
  rest : List (Filler × Filler × α)
  trailing? : Option Filler

namespace Listed

variable {α β : Type}

/-- The items behind the first one, with the commas before them. -/
def restText (write : α → List Char) (rest : List (Filler × Filler × α)) : List Char :=
  rest.flatMap fun (before, after, item) => before.text ++ ',' :: (after.text ++ write item)

def trailingText : Option Filler → List Char
  | none => []
  | some before => before.text ++ [',']

def text (write : α → List Char) (list : Listed α) : List Char :=
  write list.first ++ (restText write list.rest ++ trailingText list.trailing?)

def plain (plainItem : α → β) (list : Listed α) : UseSyntax.Listed β where
  first := plainItem list.first
  rest := list.rest.map fun (before, after, item) => (before.gap, after.gap, plainItem item)
  trailing? := list.trailing?.map Filler.gap

end Listed

/-- What a declaration imports: names in a list, or members between braces below a common front. -/
inductive Body where
  | names (clauses : Listed Clause)
  | group (front : ImportedName) (legible : Legible front.name.text) (before after inner : Filler)
      (members : Listed Member) (closing : Filler)

def Body.text : Body → List Char
  | .names clauses => clauses.text Clause.text
  | .group front _ before after inner members closing =>
    front.text ++ (before.text ++ '\\' :: (after.text ++
      '\x7b' :: (inner.text ++ (members.text Member.text ++ (closing.text ++ ['\x7d'])))))

def Body.plain : Body → UseSyntax.Body
  | .names clauses => .names (clauses.plain Clause.plain)
  | .group front _ before after inner members closing =>
    .group front before.gap after.gap inner.gap (members.plain Member.plain) closing.gap

/-- An import declaration with comments between its tokens. -/
structure Declaration where
  keyword : Keyword "use"
  space : Break
  announced? : Option Announcement
  body : Body
  ending : Filler
  semicolon : Bool

namespace Declaration

/-- The end of a declaration behind its body. -/
def endText (d : Declaration) : List Char := d.ending.text ++ if d.semicolon then [';'] else []

def text (d : Declaration) : String :=
  String.ofList (d.keyword.text ++ (d.space.text ++
    (announcedText d.announced? ++ (d.body.text ++ d.endText))))

/-- The declaration without its comments. -/
def plain (d : Declaration) : UseDeclaration where
  before := ⟨[], blanks_nil⟩
  keyword := d.keyword
  space := d.space.space
  announced? := d.announced?.map Announcement.plain
  body := d.body.plain
  ending := d.ending.gap
  semicolon := d.semicolon
  after := ⟨[], blanks_nil⟩

end Declaration

/-! ## Where comments do no harm -/

/-- The word before an alias stands alone, so that an alias is seen. -/
def Alias.Seen (a : Alias) : Prop := a.before.Clear ∧ a.after.Apart

instance (a : Alias) : Decidable a.Seen := inferInstanceAs (Decidable (a.before.Clear ∧ a.after.Apart))

/-- A name goes by the right short name if `behind` stands behind its clause. An alias that is not seen
is not missed if it is the last segment of the name, in any letter case. -/
def AliasKept (last : Segment) : Option Alias → Filler → Prop
  | none, behind => behind.SetOff
  | some a, behind =>
    a.before.Apart ∧ (a.Seen ∧ a.after.Clear ∧ behind.SetOff ∨
      ¬a.Seen ∧ lowered a.short.text = lowered last.text)

instance (last : Segment) : ∀ (alias? : Option Alias) (behind : Filler),
    Decidable (AliasKept last alias? behind)
  | none, behind => inferInstanceAs (Decidable behind.SetOff)
  | some a, behind => inferInstanceAs (Decidable (a.before.Apart ∧ (a.Seen ∧ a.after.Clear ∧
      behind.SetOff ∨ ¬a.Seen ∧ lowered a.short.text = lowered last.text)))

/-- An announcement behind `opening` is seen as one. -/
def Announcement.Seen (opening : Filler) (a : Announcement) : Prop := opening.Clear ∧ a.space.Apart

instance (opening : Filler) (a : Announcement) : Decidable (a.Seen opening) :=
  inferInstanceAs (Decidable (opening.Clear ∧ a.space.Apart))

/-- `P` holds of each item with the fillers around it, and no comment stands alone behind the last
comma. -/
def everyFrom {α : Type} (P : Filler → α → Filler → Prop) (trailing? : Option Filler)
    (closing : Filler) : Filler → α → List (Filler × Filler × α) → Prop
  | opening, item, [] =>
    match trailing? with
    | none => P opening item closing
    | some before => P opening item before ∧ closing.Clear
  | opening, item, (before, after, next) :: rest =>
    P opening item before ∧ everyFrom P trailing? closing after next rest

instance everyFromDecidable {α : Type} {P : Filler → α → Filler → Prop}
    [∀ before item behind, Decidable (P before item behind)] (trailing? : Option Filler)
    (closing : Filler) : ∀ (opening : Filler) (item : α) (rest : List (Filler × Filler × α)),
    Decidable (everyFrom P trailing? closing opening item rest)
  | opening, item, [] =>
    match trailing? with
    | none => inferInstanceAs (Decidable (P opening item closing))
    | some before => inferInstanceAs (Decidable (P opening item before ∧ closing.Clear))
  | opening, item, (before, after, next) :: rest =>
    have := everyFromDecidable (P := P) trailing? closing after next rest
    inferInstanceAs (Decidable (P opening item before ∧ everyFrom P trailing? closing after next rest))

def Listed.Every {α : Type} (P : Filler → α → Filler → Prop) (opening : Filler) (list : Listed α)
    (closing : Filler) : Prop :=
  everyFrom P list.trailing? closing opening list.first list.rest

instance {α : Type} {P : Filler → α → Filler → Prop}
    [∀ before item behind, Decidable (P before item behind)] (opening : Filler) (list : Listed α)
    (closing : Filler) : Decidable (list.Every P opening closing) :=
  everyFromDecidable list.trailing? closing opening list.first list.rest

/-- A clause is read right between two fillers. -/
def Clause.Kept (before : Filler) (clause : Clause) (behind : Filler) : Prop :=
  before.Clear ∧ AliasKept clause.imported.name.last clause.alias? behind

/-- A member behind `before` is seen to be announced. -/
def Member.Announces (before : Filler) (member : Member) : Prop :=
  ∃ announced, member.announced? = some announced ∧ announced.Seen before

/-- A member is read as without the comments, between two fillers in a group that stands behind `start`
and has `left` and `right` around its backslash. Behind a gap in front of the backslash, only the front
of the group is read anyway. -/
def Member.Kept (start left right before : Filler) (member : Member) (behind : Filler) : Prop :=
  match member.announced? with
  | some announced => announced.Seen before
  | none => start.Clear ∧ (left.Apart ∨ left.text = [] ∧ right.Clear ∧ before.Clear ∧
      AliasKept member.name.last member.alias? behind)

instance (before : Filler) (clause : Clause) (behind : Filler) : Decidable (clause.Kept before behind) :=
  inferInstanceAs (Decidable (_ ∧ _))

instance (before : Filler) (member : Member) : Decidable (member.Announces before) :=
  inferInstanceAs (Decidable (∃ announced ∈ member.announced?, announced.Seen before))

instance (start left right before : Filler) (member : Member) (behind : Filler) :
    Decidable (member.Kept start left right before behind) :=
  match h : member.announced? with
  | some announced => decidable_of_iff (announced.Seen before) (by rw [Member.Kept, h])
  | none => decidable_of_iff (start.Clear ∧ (left.Apart ∨ left.text = [] ∧ right.Clear ∧ before.Clear ∧
      AliasKept member.name.last member.alias? behind)) (by rw [Member.Kept, h])

namespace Body

/-- The comments of a body between `opening` and `ending` change nothing that is read. -/
def Undisturbed (opening ending : Filler) : Body → Prop
  | names clauses => clauses.Every Clause.Kept opening ending
  | group _ _ before after inner members closing =>
    members.Every (Member.Kept opening before after) inner closing

/-- Nothing is read from a body: its members are all seen to be announced. -/
def Silent : Body → Prop
  | names _ => False
  | group _ _ _ _ inner members closing =>
    members.Every (fun before member _ => member.Announces before) inner closing

instance (opening ending : Filler) : ∀ body : Body, Decidable (body.Undisturbed opening ending)
  | names clauses => inferInstanceAs (Decidable (clauses.Every Clause.Kept opening ending))
  | group _ _ before after inner members closing =>
    inferInstanceAs (Decidable (members.Every (Member.Kept opening before after) inner closing))

instance : ∀ body : Body, Decidable body.Silent
  | names _ => inferInstanceAs (Decidable False)
  | group _ _ _ _ inner members closing => inferInstanceAs (Decidable
      (members.Every (fun before member _ => member.Announces before) inner closing))

end Body

namespace Declaration

variable (d : Declaration)

/-- A declaration is seen to be announced. -/
def Announces : Prop :=
  ∃ announced, d.announced? = some announced ∧ announced.Seen d.space.toFiller

/-- The comments of a declaration change nothing that is read. -/
def Undisturbed : Prop :=
  match d.announced? with
  | none => d.body.Undisturbed d.space.toFiller d.ending
  | some _ => d.Announces ∨ d.body.Silent

instance : Decidable d.Announces :=
  inferInstanceAs (Decidable (∃ announced ∈ d.announced?, announced.Seen d.space.toFiller))

instance : Decidable d.Undisturbed :=
  match h : d.announced? with
  | none => decidable_of_iff (d.body.Undisturbed d.space.toFiller d.ending) (by rw [Undisturbed, h])
  | some _ => decidable_of_iff (d.Announces ∨ d.body.Silent) (by rw [Undisturbed, h])

end Declaration

/-! ## Comments without marks -/

def Alias.fillers (a : Alias) : List Filler := [a.before.toFiller, a.after.toFiller]

def aliasFillers : Option Alias → List Filler
  | none => []
  | some a => a.fillers

def Clause.fillers (clause : Clause) : List Filler := aliasFillers clause.alias?

def announcedFillers : Option Announcement → List Filler
  | none => []
  | some announced => [announced.space.toFiller]

def Member.fillers (member : Member) : List Filler :=
  announcedFillers member.announced? ++ aliasFillers member.alias?

def Listed.fillers {α : Type} (itemFillers : α → List Filler) (list : Listed α) : List Filler :=
  itemFillers list.first ++ (list.rest.flatMap fun (before, after, item) =>
    before :: after :: itemFillers item) ++ list.trailing?.toList

def Body.fillers : Body → List Filler
  | .names clauses => clauses.fillers Clause.fillers
  | .group _ _ before after inner members closing =>
    before :: after :: inner :: closing :: members.fillers Member.fillers

/-- All that stands between the tokens of a declaration. -/
def Declaration.fillers (d : Declaration) : List Filler :=
  d.space.toFiller :: d.ending :: (announcedFillers d.announced? ++ d.body.fillers)

/-- No comment of a declaration holds a comma or a brace. -/
def Declaration.Quiet (d : Declaration) : Prop := ∀ f ∈ d.fillers, f.Quiet

instance (d : Declaration) : Decidable d.Quiet := inferInstanceAs (Decidable (∀ f ∈ d.fillers, f.Quiet))

end Commented

end UseSyntax

end FacadeStubs
