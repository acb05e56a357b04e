import FacadeStubs.Analysis
import FacadeStubs.Proofs.Reader.Rows
import FacadeStubs.Proofs.Text.Utf8

/-!
# Reading types

Types are written without blanks: keywords and class names, with question marks, bars, ampersands and
parentheses around them. Each is read as it is written, in front of anything that does not go on a
type. What is to hold of the nodes that are read is a parameter: it is asked of the keywords and class
names, and has to be passed on from the parts of a type to the type (`Compositional`).

Results:
* `isHintText_render`: a type is read whole, as what one member alone makes of it (`collapsed`), if
  its keywords and class names are read.
* `isTypeText_render`: a type that a declaration may have is read whole.
-/
namespace FacadeStubs

open Php Lexical Reader Analysis

namespace TypeHint

/-- The keywords as they are read. Of `static` the first letter may be the long one, which no keyword
is compared by. -/
def spellings : List String := "ſtatic" :: builtins

/-- Keywords as they are read, and classes of any name. -/
def IsNamed : TypeHint → Prop
  | builtin name => name ∈ spellings
  | cls _ => True
  | _ => False

/-- Keywords as they are read, and classes. -/
def IsPlain : TypeHint → Prop
  | builtin name => name ∈ spellings
  | cls fqn => IsPath fqn
  | _ => False

theorem IsPlain.isNamed {h : TypeHint} (hh : h.IsPlain) : h.IsNamed := by
  cases h with
  | builtin name => exact hh
  | cls fqn => trivial
  | _ => exact hh.elim

/-! ## Types over other leaves -/

section
variable (P : TypeHint → Prop)

/-- Keywords and classes of which something holds, and with a question mark in front. -/
def IsSimpleOf : TypeHint → Prop
  | nullable named => P named
  | builtin name => P (builtin name)
  | cls fqn => P (cls fqn)
  | _ => False

/-- Such types with ampersands between them. -/
def IsMeetOf : TypeHint → Prop
  | intersection members => members ≠ [] ∧ ∀ m ∈ members, m.IsSimpleOf P
  | _ => False

/-- Such types with ampersands and bars between them. -/
def IsBuiltOf : TypeHint → Prop
  | union members => members ≠ [] ∧ ∀ m ∈ members, m.IsSimpleOf P ∨ m.IsMeetOf P
  | t => t.IsSimpleOf P ∨ t.IsMeetOf P

end

/-- The types that a declaration may have. -/
def IsDeclarable (t : TypeHint) : Prop := t.IsBuiltOf IsPlain

variable {P Q : TypeHint → Prop} {h : TypeHint}

theorem IsNamed.isSimpleOf (hh : h.IsNamed) : h.IsSimpleOf IsNamed := by
  cases h with
  | builtin name => exact hh
  | cls fqn => trivial
  | _ => exact hh.elim

theorem IsSimpleOf.mono (hPQ : ∀ t, P t → Q t) (hh : h.IsSimpleOf P) : h.IsSimpleOf Q := by
  cases h with
  | nullable named => exact hPQ _ hh
  | builtin name => exact hPQ _ hh
  | cls fqn => exact hPQ _ hh
  | _ => exact hh.elim

theorem IsMeetOf.mono (hPQ : ∀ t, P t → Q t) (hh : h.IsMeetOf P) : h.IsMeetOf Q := by
  cases h with
  | intersection members => exact ⟨hh.1, fun m hm => (hh.2 m hm).mono hPQ⟩
  | _ => exact hh.elim

theorem IsBuiltOf.mono (hPQ : ∀ t, P t → Q t) (hh : h.IsBuiltOf P) : h.IsBuiltOf Q := by
  have hpart : ∀ {m : TypeHint}, m.IsSimpleOf P ∨ m.IsMeetOf P → m.IsSimpleOf Q ∨ m.IsMeetOf Q :=
    fun hm => hm.imp (IsSimpleOf.mono hPQ) (IsMeetOf.mono hPQ)
  cases h with
  | union members => exact ⟨hh.1, fun m hm => hpart (hh.2 m hm)⟩
  | _ => exact hpart hh

theorem IsSimpleOf.notIntersection (hh : h.IsSimpleOf P) : h.isIntersection = false := by
  cases h with
  | intersection members => exact hh.elim
  | _ => rfl

/-- A type as it is read: one member alone is no union and no intersection, unless it is an
intersection in parentheses. -/
def collapsed : TypeHint → TypeHint
  | union [m] => if m.isIntersection then union [m] else m
  | intersection [m] => m
  | t => t

theorem IsSimpleOf.isBuiltOf (hh : h.IsSimpleOf P) : h.IsBuiltOf P := by
  cases h with
  | union members => exact hh.elim
  | _ => exact .inl hh

theorem IsSimpleOf.collapsed (hh : h.IsSimpleOf P) : h.collapsed = h := by
  cases h with
  | union members => exact hh.elim
  | intersection members => exact hh.elim
  | _ => rfl

/-- An intersection in parentheses is a union of its own. -/
theorem IsMeetOf.collapsed_union (hh : h.IsMeetOf P) : (union [h]).collapsed = union [h] := by
  cases h with
  | intersection members => rfl
  | _ => exact hh.elim

end TypeHint

namespace Php

/-- A node of a type, in which nothing is declared. -/
structure Node.IsTypeNode (n : Node) : Prop where
  kind : n.kind.isType = true
  bare : n.IsBare

variable {source : Bytes} {b : Bool} {t u : Bytes}

/-! ## Names -/

theorem endsPath_sign {a : UInt8} (ha : isSolid a = true) (hl : isLabelByte a = false)
    (h92 : a ≠ 92) : EndsPath b (a :: u) := by
  refine (next_token (beginsToken_solid ha)).endsPath (boundary_cons hl) ?_
  simp [beginsWith, beginsWith.go, ascii, Ne.symm h92]

theorem reads_rooted {k s r : Bytes} (hk : Passed k) (hs : IsName s) (hr : Segments r) :
    Reads source b anyName (92 :: (k ++ (s ++ r))) (EndsPath b)
      fun n => n.IsLeaf source .qualifiedName (92 :: (k ++ (s ++ r))) := by
  intro c u hc hrest hu
  have hends : EndsPath c.tagEnds u := by rw [hc.mode]; exact hu
  refine ⟨_, run_anyName_rooted hk hs hr hends hc.toIn.fits hrest, rfl, rfl, ?_⟩
  have hbytes := hc.toIn.bytes .qualifiedName 0 (92 :: (k ++ (s ++ r))).length []
  rw [Nat.add_zero, Nat.zero_add, List.drop_zero, hrest, List.take_left] at hbytes
  exact hbytes

theorem reads_single {s : Bytes} (hs : IsName s) (hw : String.ofList (folded s) ≠ "namespace") :
    Reads source b anyName s (EndsPath b) fun n => n.IsLeaf source .name s := by
  intro c u hc hr hu
  have hends : EndsPath c.tagEnds u := by rw [hc.mode]; exact hu
  refine ⟨_, run_anyName_single hs hends hw hr, rfl, rfl, ?_⟩
  have hbytes := hc.toIn.bytes .name 0 s.length []
  rw [Nat.add_zero, Nat.zero_add, List.drop_zero, hr, List.take_left] at hbytes
  exact hbytes

/-! ## Texts of types -/

/-- Bytes that may stand in a comment. -/
def Commentable (t : Bytes) : Prop := ∀ a ∈ t, a ≠ 47 ∧ a ≠ 0

instance (t : Bytes) : Decidable (Commentable t) := inferInstanceAs (Decidable (∀ a ∈ t, _))

theorem Commentable.append {s t : Bytes} (hs : Commentable s) (ht : Commentable t) :
    Commentable (s ++ t) := fun a ha => (List.mem_append.1 ha).elim (hs a) (ht a)

theorem Commentable.cons {a : UInt8} (ha : a ≠ 47 ∧ a ≠ 0) (ht : Commentable t) :
    Commentable (a :: t) := List.forall_mem_cons.2 ⟨ha, ht⟩

theorem commentable_name {s : Bytes} (hs : IsName s) : Commentable s := by
  intro a ha
  have hlabel := isLabelByte_of_mem hs a ha
  constructor
  · rintro rfl
    cases hlabel
  · rintro rfl
    cases hlabel

theorem commentable_flatMap {a : UInt8} (ha : a ≠ 47 ∧ a ≠ 0) {ts : List Bytes}
    (h : ∀ t ∈ ts, Commentable t) : Commentable (ts.flatMap (a :: ·)) := by
  intro x hx
  obtain ⟨t, ht, hx⟩ := List.mem_flatMap.1 hx
  exact (h t ht).cons ha x hx

/-- No visibility stands at the front, which would make a parameter a property. -/
def Modest (t : Bytes) : Prop := ∀ u, Boundary u → isVisibility (wordAt (t ++ u)) = false

theorem modest_sign {a : UInt8} (ha : isLabelByte a = false) : Modest (a :: t) := by
  intro u _
  have hword : wordAt (a :: (t ++ u)) = "" := wordAt_boundary (boundary_cons ha)
  rw [List.cons_append, hword]
  rfl

/-- A text that begins with no sign that separates or closes. -/
def Opens (t : Bytes) : Prop := ∃ a rest, t = a :: rest ∧ a ≠ 44 ∧ a ≠ 41

theorem Opens.append (h : Opens t) (u : Bytes) : Opens (t ++ u) := by
  obtain ⟨a, rest, rfl, ha⟩ := h
  exact ⟨a, rest ++ u, rfl, ha⟩

/-- A text that begins with a backslash or a name. -/
def BeginsName (t : Bytes) : Prop := (∃ rest, t = 92 :: rest) ∨ ∀ u, nameLength (t ++ u) ≠ 0

theorem beginsName_isName (h : IsName t) : BeginsName t := by
  right
  intro u
  have hlength : t.length ≠ 0 := by simpa using h.1
  rw [nameLength_add h]
  omega

theorem BeginsName.begins (h : BeginsName t) (u : Bytes) : BeginsToken (t ++ u) := by
  obtain ⟨rest, rfl⟩ | hname := h
  · exact beginsToken_solid rfl
  · exact beginsToken_name (hname u)

/-- A sign that stands in no name stands at the front of none. -/
theorem BeginsName.noSign (h : BeginsName t) {text : String} {c : Char} (ht : text.toList = [c])
    (hc : isLabelByte (ascii c) = false) (h92 : ascii c ≠ 92) (u : Bytes) :
    beginsWith text (t ++ u) = false := by
  obtain ⟨rest, rfl⟩ | hname := h
  · simp [beginsWith, ht, beginsWith.go, h92]
  · exact beginsWith_name (hname u) ht hc

theorem BeginsName.head (h : BeginsName t) :
    ∃ a rest, t = a :: rest ∧ (a = 92 ∨ isLabelByte a = true) := by
  obtain ⟨rest, rfl⟩ | hname := h
  · exact ⟨92, rest, rfl, .inl rfl⟩
  · have hlength := hname []
    rw [List.append_nil] at hlength
    obtain ⟨a, rest, rfl, ha⟩ := nameLength_head hlength
    exact ⟨a, rest, rfl, .inr ha⟩

theorem BeginsName.opens (h : BeginsName t) : Opens t := by
  obtain ⟨a, rest, rfl, ha⟩ := h.head
  refine ⟨a, rest, rfl, ?_, ?_⟩
  · intro heq
    subst heq
    rcases ha with ha | ha <;> cases ha
  · intro heq
    subst heq
    rcases ha with ha | ha <;> cases ha

section
variable {p q : Bytes → Node → Prop}

/-- A text that is read as a keyword or class name of which something holds. -/
structure IsPlainText (p : Bytes → Node → Prop) (t : Bytes) : Prop where
  name : BeginsName t
  modest : Modest t
  reads : ∀ source b, Reads source b plainType t (EndsPath b) (p source)

theorem IsPlainText.mono (h : IsPlainText p t) (hpq : ∀ source n, p source n → q source n) :
    IsPlainText q t :=
  ⟨h.name, h.modest, fun source b => (h.reads source b).mono (fun _ hu => hu) (hpq source)⟩

/-- A node of a type that is a name and nothing else. -/
structure Node.IsNameType (n : Node) (source : Bytes) (kind : Kind) (s : Bytes) : Prop where
  type : n.IsTypeNode
  kind : n.kind = kind
  bytes : n.bytes source = s

theorem isPlainText_rooted {k s r : Bytes} (hk : Passed k) (hs : IsName s) (hr : Segments r) :
    IsPlainText (fun source n => n.IsNameType source .namedType (92 :: (k ++ (s ++ r))))
      (92 :: (k ++ (s ++ r))) := by
  refine ⟨.inl ⟨_, rfl⟩, modest_sign rfl, fun source b => ?_⟩
  unfold plainType
  refine Reads.peek (p := (atPrimitiveType · = false)) (fun c u hrest _ => ?_) fun bytes hb => ?_
  · have hname : nameLength c.rest = 0 := by
      rw [hrest]
      exact nameLength_boundary (boundary_cons rfl)
    have hnext : Next c.rest c.rest := next_token (by rw [hrest]; exact beginsToken_solid rfl)
    refine ⟨_, hnext.run_ahead, ?_⟩
    simp [atPrimitiveType, wordAt, exactWordAt, hname, folded, primitiveTypes]
  · rw [if_neg (by simp [hb])]
    refine (reads_rooted hk hs hr).yields fun n hn => ?_
    obtain ⟨kind, start, stop, children⟩ := n
    obtain ⟨rfl, rfl, hbytes⟩ := hn
    exact ⟨⟨rfl, rfl⟩, rfl, hbytes⟩

/-- A word of its own is a keyword or the name of a class. -/
theorem isPlainText_word {s : Bytes} (hs : IsName s)
    (hw : String.ofList (folded s) ≠ "namespace")
    (hmodest : isVisibility (String.ofList (folded s)) = false) :
    IsPlainText (fun source n => n.IsNameType source
      (if atPrimitiveType s then .primitiveType else .namedType) s) s := by
  refine ⟨beginsName_isName hs, fun u hu => ?_, fun source b => ?_⟩
  · rw [wordAt_append hs hu]
    exact hmodest
  unfold plainType
  refine Reads.peek (p := fun w => atPrimitiveType w = atPrimitiveType s) (fun c u hr hu => ?_)
    fun w hword => ?_
  · have hnext : Next c.rest (s ++ u) := by
      rw [hr]
      exact next_token (beginsToken_isName hs hu.1)
    have hself : wordAt s = String.ofList (folded s) := by
      rw [wordAt, hs.2, List.take_length]
    refine ⟨_, hnext.run_ahead, ?_⟩
    rw [atPrimitiveType, atPrimitiveType, wordAt_append hs hu.1, exactWordAt_front hu.1, hself]
  · rw [hword]
    split
    · refine ((reads_identifier .nil hs).mono (fun u hu => hu.1) fun _ hn => hn).yields ?_
      intro n hn
      exact ⟨⟨rfl, rfl⟩, rfl, hn.bytes⟩
    · refine (reads_single hs hw).yields fun n hn => ?_
      obtain ⟨kind, start, stop, children⟩ := n
      obtain ⟨rfl, rfl, hbytes⟩ := hn
      exact ⟨⟨rfl, rfl⟩, rfl, hbytes⟩

/-! ## Simple types -/

/-- What is to hold of the nodes of types, passed on from the parts of a type to the type. -/
structure Compositional (post : TypeHint → Node → Prop) : Prop where
  nullable : ∀ {h : TypeHint} {n m : Node}, m.kind = .optionalType → m.children = [n] → post h n →
    post (.nullable h) m
  intersection : ∀ {hs : List TypeHint} {m : Node}, m.kind = .intersectionType →
    List.Forall₂ post hs m.children → post (.intersection hs) m
  union : ∀ {hs : List TypeHint} {m : Node}, m.kind = .unionType →
    List.Forall₂ post hs m.children → post (.union hs) m

/-- A text that is read as a type without bars and ampersands. -/
structure IsSimpleText (p : Bytes → Node → Prop) (t : Bytes) : Prop where
  opens : Opens t
  begins : ∀ u, BeginsToken (t ++ u)
  modest : Modest t
  joins : ∀ u, joinsTypes (38 :: (t ++ u)) = true
  noGroup : ∀ u, beginsWith "(" (t ++ u) = false
  reads : ∀ source b, Reads source b simpleType t (EndsPath b) (p source)

theorem isSimpleText_plain (h : IsPlainText p t) : IsSimpleText p t := by
  refine ⟨h.name.opens, h.name.begins, h.modest, fun u => ?_,
    h.name.noSign rfl (by decide) (by decide), fun source b => ?_⟩
  · have hbegins : nameLength (t ++ u) ≠ 0 ∨ beginsWith "\\" (t ++ u) = true := by
      obtain ⟨rest, rfl⟩ | hname := h.name
      · exact .inr rfl
      · exact .inl (hname u)
    simp only [joinsTypes, (h.name.begins u).gaps, List.drop_zero, Bool.and_eq_true, Bool.or_eq_true,
      bne_iff_ne]
    exact ⟨rfl, .inl hbegins⟩
  · unfold simpleType
    refine Reads.look (a := false) (fun c u hr _ => ?_) (h.reads source b)
    have hnext : Next c.rest (t ++ u) := by rw [hr]; exact next_token (h.name.begins u)
    rw [hnext.run_nextIs, h.name.noSign rfl (by decide) (by decide)]

theorem isSimpleText_nullable (h : IsPlainText p t) :
    IsSimpleText (fun source m => m.kind = .optionalType ∧ ∃ n, m.children = [n] ∧ p source n)
      (63 :: t) := by
  have htoken : ∀ u, BeginsToken (63 :: t ++ u) := by
    intro u
    obtain ⟨a, rest, rfl, ha⟩ := h.name.head
    have h62 : a ≠ 62 := by
      intro heq
      subst heq
      rcases ha with ha | ha <;> cases ha
    exact ⟨blankLength_printed (by decide) (by decide), commentLength_of_ne (by decide) (by decide),
      by simp [atClosingTag, beginsWith, beginsWith.go, ascii, Ne.symm h62]⟩
  have hmark : ∀ u, beginsWith "?" (63 :: t ++ u) = true := fun u => rfl
  refine ⟨⟨63, _, rfl, by decide, by decide⟩, htoken, modest_sign rfl, fun u => ?_, fun u => rfl,
    fun source b => ?_⟩
  · simp only [joinsTypes, (htoken u).gaps, List.drop_zero, hmark, Bool.or_true, Bool.and_true]
    rfl
  · unfold simpleType
    refine Reads.look (a := true) (fun c u hr _ => ?_) ?_
    · have hnext : Next c.rest (63 :: t ++ u) := by rw [hr]; exact next_token (htoken u)
      rw [hnext.run_nextIs, hmark]
    have hsign : Reads source b (symbol "?") ([] ++ [63]) (fun u => ∃ v, u = t ++ v)
        fun _ => True := by
      refine reads_symbol .nil rfl (fun u => rfl) fun u hu => ?_
      obtain ⟨v, rfl⟩ := hu
      exact htoken v
    have hparts : Reads source b (do symbol "?"; return [← plainType]) (63 :: t) (EndsPath b)
        fun ns => ∃ n, ns = [n] ∧ p source n :=
      hsign.bind (fun _ _ => (h.reads source b).yields fun n hn => ⟨n, rfl, hn⟩)
        fun u _ => ⟨u, rfl⟩
    refine (reads_nodeOf .nil hparts fun u _ => htoken u).mono (fun _ hu => hu) fun m hm => ?_
    exact ⟨hm.1, hm.2.2⟩

/-! ## Types with ampersands -/

/-- Nothing follows that could go on a row of types with ampersands. -/
def EndsMeet (b : Bool) (u : Bytes) : Prop := EndsPath b u ∧ ∃ w, Next u w ∧ joinsTypes w = false

/-- Nothing follows that could go on a type. -/
def EndsType (b : Bool) (u : Bytes) : Prop :=
  EndsPath b u ∧ ∃ w, Next u w ∧ joinsTypes w = false ∧ beginsWith "|" w = false

theorem EndsType.endsMeet (h : EndsType b u) : EndsMeet b u := by
  obtain ⟨hpath, w, hnext, hjoins, -⟩ := h
  exact ⟨hpath, w, hnext, hjoins⟩

theorem reads_joinedType (h : IsSimpleText p t) :
    Reads source b joinedType (38 :: t) (EndsPath b) (p source) := by
  unfold joinedType
  refine Reads.peek (p := (joinsTypes · = true)) (fun c u hr _ => ?_) fun bytes hb => ?_
  · have hnext : Next c.rest (38 :: (t ++ u)) := by
      rw [hr]
      exact next_token (beginsToken_solid rfl)
    exact ⟨_, hnext.run_behindOperand, h.joins u⟩
  · refine Reads.look (a := ()) (fun c u _ _ => run_require_true hb) ?_
    exact Reads.bind (t := [38]) (reads_sign .nil rfl rfl) (fun _ _ => h.reads source b)
      fun _ _ => trivial

theorem stops_joinedType (h : EndsMeet b u) : Stops source b joinedType u := by
  intro c _ hr
  obtain ⟨-, w, hnext, hjoins⟩ := h
  have hnext' : Next c.rest w := by rw [hr]; exact hnext
  unfold joinedType
  rw [run_bind_some hnext'.run_behindOperand]
  exact run_bind_none (run_require_false hjoins)

/-- The bytes of a row with a sign between two entries. -/
def joinBytes (a : UInt8) : List Bytes → Bytes
  | [] => []
  | t :: ts => t ++ ts.flatMap (a :: ·)

theorem commentable_joinBytes {a : UInt8} (ha : a ≠ 47 ∧ a ≠ 0) {ts : List Bytes}
    (h : ∀ t ∈ ts, Commentable t) : Commentable (joinBytes a ts) := by
  cases ts with
  | nil => simp [joinBytes, Commentable]
  | cons t ts =>
    exact (h t (by simp)).append (commentable_flatMap ha fun s hs => h s (by simp [hs]))

/-- The first entry of a row is followed by a sign or by what follows the row. -/
theorem modest_joinBytes {a : UInt8} (ha : isLabelByte a = false) {t : Bytes} {ts : List Bytes}
    (h : Modest t) : Modest (joinBytes a (t :: ts)) := by
  intro u hu
  have hbound : Boundary (ts.flatMap (a :: ·) ++ u) := by
    cases ts with
    | nil => exact hu
    | cons s ts => exact boundary_cons ha
  simpa [joinBytes] using h _ hbound

/-- What follows the first of a row of types with ampersands. -/
theorem endsPath_joined (ts : List Bytes) (hu : EndsPath b u) :
    EndsPath b (ts.flatMap (38 :: ·) ++ u) := by
  cases ts with
  | nil => exact hu
  | cons t ts => exact endsPath_sign rfl rfl (by decide)

end

section
variable {post : Bytes → TypeHint → Node → Prop} {text : TypeHint → Bytes} {m : TypeHint}
  {members : List TypeHint}

/-- The rest of a row of types with ampersands. -/
theorem reads_joinedTypes
    (h : ∀ m ∈ members, IsSimpleText (fun source => post source m) (text m)) :
    Reads source b (many joinedType) ((members.map text).flatMap (38 :: ·)) (EndsMeet b)
      (List.Forall₂ (post source) members) := by
  have hmany : Reads source b (many joinedType)
      (rowBytes (members.map fun m => (38 :: text m, post source m)))
      (fun u => EndsPath b u ∧ Stops source b joinedType u)
      (Gives (members.map fun m => (38 :: text m, post source m))) :=
    reads_many (List.forall_mem_map.2 fun m _ => by simp)
      (List.forall_mem_map.2 fun m hm => reads_joinedType (h m hm))
      fun i hi w => by
        obtain ⟨m, -, rfl⟩ := List.mem_map.1 (List.mem_of_mem_tail hi)
        exact endsPath_sign rfl rfl (by decide)
  have hrow : rowBytes (members.map fun m => (38 :: text m, post source m)) =
      (members.map text).flatMap (38 :: ·) := by
    simp [rowBytes, List.flatMap_map]
  rw [hrow] at hmany
  refine hmany.mono (fun u hu => ⟨hu.1, stops_joinedType hu⟩) fun ns hns => ?_
  simpa [Gives, List.forall₂_map_left_iff] using hns

/-- A row of types with ampersands in parentheses. -/
theorem reads_groupedType (hne : members ≠ [])
    (h : ∀ m ∈ members, IsSimpleText (fun source => post source m) (text m)) :
    Reads source b groupedType (40 :: (joinBytes 38 (members.map text) ++ [41])) anyRest
      fun n => n.kind = .intersectionType ∧ List.Forall₂ (post source) members n.children := by
  obtain ⟨m, members, rfl⟩ := List.exists_cons_of_ne_nil hne
  have hm := h m (by simp)
  have hclose : ∀ u, (∃ w, u = [] ++ 41 :: w) → EndsMeet false u := by
    intro u hu
    obtain ⟨w, rfl⟩ := hu
    exact ⟨endsPath_sign rfl rfl (by decide), _, next_token (beginsToken_solid rfl), rfl⟩
  have hparts : Reads source false (do return (← simpleType) :: (← many joinedType))
      (joinBytes 38 ((m :: members).map text)) (fun u => ∃ w, u = [] ++ 41 :: w)
      (List.Forall₂ (post source) (m :: members)) := by
    refine (hm.reads source false).bind (fun n hn => ?_) fun u hu => endsPath_joined _ (hclose u hu).1
    refine ((reads_joinedTypes fun k hk => h k (by simp [hk])).mono hclose fun _ hns => hns).yields ?_
    intro ns hns
    exact .cons hn hns
  have hbegins : ∀ u, (∃ w, u = [] ++ 41 :: w) →
      BeginsToken (joinBytes 38 ((m :: members).map text) ++ u) := by
    intro u _
    simpa [joinBytes] using hm.begins ((members.map text).flatMap (38 :: ·) ++ u)
  refine reads_between .nil rfl rfl .nil rfl rfl ?_
  exact (reads_nodeOf .nil hparts hbegins).mono (fun _ hu => hu) fun n hn => ⟨hn.1, hn.2.2⟩

/-! ## Types with bars -/

/-- A text that may stand between bars, with parentheses around it or not. -/
structure IsMemberText (grouped : Bool) (p : Bytes → Node → Prop) (t : Bytes) : Prop where
  opens : Opens t
  begins : ∀ u, BeginsToken (t ++ u)
  modest : Modest t
  group : ∀ u, beginsWith "(" (t ++ u) = grouped
  reads : ∀ source b, Reads source b unionMember t (EndsPath b) (p source)

theorem isMemberText_simple {p : Bytes → Node → Prop} (h : IsSimpleText p t) :
    IsMemberText false p t := by
  refine ⟨h.opens, h.begins, h.modest, h.noGroup, fun source b => ?_⟩
  unfold unionMember
  refine Reads.look (a := false) (fun c u hr _ => ?_) (h.reads source b)
  have hnext : Next c.rest (t ++ u) := by rw [hr]; exact next_token (h.begins u)
  rw [hnext.run_nextIs, h.noGroup]

theorem isMemberText_group (hne : members ≠ [])
    (h : ∀ m ∈ members, IsSimpleText (fun source => post source m) (text m)) :
    IsMemberText true (fun source n =>
      n.kind = .intersectionType ∧ List.Forall₂ (post source) members n.children)
      (40 :: (joinBytes 38 (members.map text) ++ [41])) := by
  refine ⟨⟨40, _, rfl, by decide, by decide⟩, fun u => beginsToken_solid rfl, modest_sign rfl,
    fun u => rfl, fun source b => ?_⟩
  unfold unionMember
  refine Reads.look (a := true) (fun c u hr _ => ?_)
    ((reads_groupedType hne h).mono (fun _ _ => trivial) fun _ hn => hn)
  have hnext : Next c.rest (40 :: (joinBytes 38 (members.map text) ++ [41]) ++ u) := by
    rw [hr]
    exact next_token (beginsToken_solid rfl)
  rw [hnext.run_nextIs]
  rfl

/-- A bar and a member behind it. -/
def barredMember : Reader Node := do
  require (← thenIs "|")
  symbol "|"
  unionMember

theorem reads_barredMember {grouped : Bool} {p : Bytes → Node → Prop}
    (h : IsMemberText grouped p t) :
    Reads source b barredMember (124 :: t) (EndsPath b) (p source) := by
  unfold barredMember
  refine Reads.look (a := true) (fun c u hr _ => ?_) (Reads.look (a := ()) (fun c u _ _ => ?_) ?_)
  · have hnext : Next c.rest (124 :: (t ++ u)) := by
      rw [hr]
      exact next_token (beginsToken_solid rfl)
    rw [hnext.run_thenIs]
    rfl
  · exact run_require_true rfl
  · exact Reads.bind (t := [124]) (reads_sign .nil rfl rfl) (fun _ _ => h.reads source b)
      fun _ _ => trivial

theorem stops_barredMember (h : EndsType b u) : Stops source b barredMember u := by
  intro c _ hr
  obtain ⟨-, w, hnext, -, hbar⟩ := h
  have hnext' : Next c.rest w := by rw [hr]; exact hnext
  unfold barredMember
  rw [run_bind_some (hnext'.run_thenIs _), hbar]
  exact run_bind_none (run_require_false rfl)

theorem reads_barredMembers
    (h : ∀ m ∈ members, IsMemberText m.isIntersection (fun source => post source m) (text m)) :
    Reads source b (many barredMember) ((members.map text).flatMap (124 :: ·)) (EndsType b)
      (List.Forall₂ (post source) members) := by
  have hmany : Reads source b (many barredMember)
      (rowBytes (members.map fun m => (124 :: text m, post source m)))
      (fun u => EndsPath b u ∧ Stops source b barredMember u)
      (Gives (members.map fun m => (124 :: text m, post source m))) :=
    reads_many (List.forall_mem_map.2 fun m _ => by simp)
      (List.forall_mem_map.2 fun m hm => reads_barredMember (h m hm))
      fun i hi w => by
        obtain ⟨m, -, rfl⟩ := List.mem_map.1 (List.mem_of_mem_tail hi)
        exact endsPath_sign rfl rfl (by decide)
  have hrow : rowBytes (members.map fun m => (124 :: text m, post source m)) =
      (members.map text).flatMap (124 :: ·) := by
    simp [rowBytes, List.flatMap_map]
  rw [hrow] at hmany
  refine hmany.mono (fun u hu => ⟨hu.1, stops_barredMember hu⟩) fun ns hns => ?_
  simpa [Gives, List.forall₂_map_left_iff] using hns

/-- What follows the first member of a type with bars. -/
theorem endsType_barred (ts : List Bytes) (hu : EndsType b u) :
    EndsMeet b (ts.flatMap (124 :: ·) ++ u) := by
  cases ts with
  | nil => exact hu.endsMeet
  | cons t ts =>
    exact ⟨endsPath_sign rfl rfl (by decide), _, next_token (beginsToken_solid rfl), rfl⟩

/-- A type with bars, or one member alone. -/
theorem reads_union {g : Bytes} (hg : IsGap g) (hpost : Compositional (post source))
    (hne : members ≠ [])
    (h : ∀ m ∈ members, IsMemberText m.isIntersection (fun source => post source m) (text m)) :
    Reads source b typeHint (g ++ joinBytes 124 (members.map text)) (EndsType b)
      (post source (TypeHint.union members).collapsed) := by
  obtain ⟨m, members, rfl⟩ := List.exists_cons_of_ne_nil hne
  have hm := h m (by simp)
  have hbegins : ∀ u, BeginsToken (joinBytes 124 ((m :: members).map text) ++ u) := by
    intro u
    simpa [joinBytes] using hm.begins ((members.map text).flatMap (124 :: ·) ++ u)
  unfold typeHint
  refine (reads_gap hg).bind (fun _ _ => Reads.position fun start => ?_) fun u _ => hbegins u
  refine Reads.look (a := m.isIntersection) (fun c u hr _ => ?_) ?_
  · have hnext : Next c.rest (joinBytes 124 ((m :: members).map text) ++ u) := by
      rw [hr]
      exact next_token (hbegins u)
    rw [hnext.run_nextIs]
    simpa [joinBytes] using hm.group ((members.map text).flatMap (124 :: ·) ++ u)
  refine (hm.reads source b).bind (fun n hn => ?_) fun u hu => (endsType_barred _ hu).1
  refine Reads.peek (p := (joinsTypes · = false)) (fun c u hr hu => ?_) fun bytes hb => ?_
  · obtain ⟨-, w, hnext, hjoins⟩ := endsType_barred (members.map text) hu
    exact ⟨w, Next.run_behindOperand (by rw [hr]; exact hnext), hjoins⟩
  rw [if_neg (by simp [hb])]
  refine Reads.finish (reads_barredMembers fun k hk => h k (List.mem_cons_of_mem m hk)) ?_
  intro ns hns
  have hunion : Reads source b (nodeFrom .unionType start (n :: ns)) [] (EndsType b)
      (post source (.union (m :: members))) := by
    refine (reads_nodeFrom .unionType start (n :: ns)).mono (fun _ hu => hu) fun k hk => ?_
    exact hpost.union hk.1 (by rw [hk.2]; exact .cons hn hns)
  cases hns with
  | nil =>
    cases hgroup : m.isIntersection with
    | true => simpa [TypeHint.collapsed, hgroup] using hunion
    | false => simpa [TypeHint.collapsed, hgroup] using reads_pure hn
  | cons _ _ => simpa [TypeHint.collapsed] using hunion

/-- A type with ampersands, or one member alone. -/
theorem reads_intersection {g : Bytes} (hg : IsGap g) (hpost : Compositional (post source))
    (hne : members ≠ []) (hsimple : ∀ m ∈ members, m.isIntersection = false)
    (h : ∀ m ∈ members, IsSimpleText (fun source => post source m) (text m)) :
    Reads source b typeHint (g ++ joinBytes 38 (members.map text)) (EndsType b)
      (post source (TypeHint.intersection members).collapsed) := by
  obtain ⟨m, members, rfl⟩ := List.exists_cons_of_ne_nil hne
  have hm := h m (by simp)
  cases members with
  | nil =>
    have hgroup : m.isIntersection = false := hsimple m (by simp)
    have hmember : ∀ k ∈ [m], IsMemberText k.isIntersection (fun source => post source k) (text k) := by
      intro k hk
      obtain rfl : k = m := by simpa using hk
      rw [hgroup]
      exact isMemberText_simple hm
    have hunion := reads_union (b := b) hg hpost (by simp) hmember
    simpa [TypeHint.collapsed, hgroup, joinBytes] using hunion
  | cons m' members =>
    have hbegins : ∀ u, BeginsToken (joinBytes 38 ((m :: m' :: members).map text) ++ u) := by
      intro u
      simpa [joinBytes] using hm.begins (((m' :: members).map text).flatMap (38 :: ·) ++ u)
    unfold typeHint
    refine (reads_gap hg).bind (fun _ _ => Reads.position fun start => ?_) fun u _ => hbegins u
    refine Reads.look (a := false) (fun c u hr _ => ?_) ?_
    · have hnext : Next c.rest (joinBytes 38 ((m :: m' :: members).map text) ++ u) := by
        rw [hr]
        exact next_token (hbegins u)
      rw [hnext.run_nextIs]
      simpa [joinBytes] using hm.noGroup (((m' :: members).map text).flatMap (38 :: ·) ++ u)
    refine ((isMemberText_simple hm).reads source b).bind (fun n hn => ?_) fun u hu =>
      endsPath_joined ((m' :: members).map text) hu.1
    refine Reads.peek (p := (joinsTypes · = true)) (fun c u hr _ => ?_) fun bytes hb => ?_
    · have hnext : Next c.rest (((m' :: members).map text).flatMap (38 :: ·) ++ u) := by
        rw [hr]
        exact next_token (beginsToken_solid rfl)
      refine ⟨_, hnext.run_behindOperand, ?_⟩
      simpa using (h m' (by simp)).joins ((members.map text).flatMap (38 :: ·) ++ u)
    rw [if_pos (by simp [hb])]
    have hrest : ∀ k ∈ m' :: members, IsSimpleText (fun source => post source k) (text k) :=
      fun k hk => h k (List.mem_cons_of_mem m hk)
    refine Reads.finish ((reads_joinedTypes hrest).mono (fun u hu => hu.endsMeet)
      fun _ hns => hns) fun ns hns => ?_
    refine (reads_nodeFrom .intersectionType start (n :: ns)).mono (fun _ hu => hu) fun k hk => ?_
    exact hpost.intersection hk.1 (by rw [hk.2]; exact .cons hn hns)

end

/-! ## All types -/

/-- A text that is read as a type. -/
structure IsHintText (p : Bytes → Node → Prop) (t : Bytes) : Prop where
  opens : Opens t
  begins : ∀ u, BeginsToken (t ++ u)
  modest : Modest t
  reads : ∀ source b g, IsGap g → Reads source b typeHint (g ++ t) (EndsType b) (p source)

theorem bytesOf_joined {separator : String} {a : UInt8} (ha : Utf8.bytesOf separator = [a]) :
    ∀ texts : List String, Utf8.bytesOf (joined separator texts) =
      joinBytes a (texts.map Utf8.bytesOf)
  | [] => by simp [joined, joinBytes, Utf8.bytesOf, Utf8.encode]
  | t :: texts => by
    rw [Utf8.bytesOf_joined_cons, ha]
    simp [joinBytes, List.flatMap_map]

section
variable {selfClass : Option String} {post : Bytes → TypeHint → Node → Prop}
  {P : TypeHint → Prop} {h m : TypeHint} {members : List TypeHint}

/-- The bytes of a type as it is written. -/
def typeBytes (selfClass : Option String) (h : TypeHint) : Bytes :=
  Utf8.bytesOf (h.render selfClass)

/-- The bytes of a member of a union, in parentheses if it is an intersection. -/
def barredBytes (selfClass : Option String) (m : TypeHint) : Bytes :=
  if m.isIntersection then 40 :: (typeBytes selfClass m ++ [41]) else typeBytes selfClass m

theorem typeBytes_nullable : typeBytes selfClass (.nullable h) = 63 :: typeBytes selfClass h := by
  rw [typeBytes, TypeHint.render, Utf8.bytesOf_append]
  rfl

theorem typeBytes_intersection : typeBytes selfClass (.intersection members) =
    joinBytes 38 (members.map (typeBytes selfClass)) := by
  have hsign : Utf8.bytesOf "&" = [38] := rfl
  have htexts : (members.map (TypeHint.render selfClass)).map Utf8.bytesOf =
      members.map (typeBytes selfClass) := by
    rw [List.map_map]
    rfl
  rw [typeBytes, TypeHint.render, bytesOf_joined hsign, ← htexts]
  simp

theorem typeBytes_union : typeBytes selfClass (.union members) =
    joinBytes 124 (members.map (barredBytes selfClass)) := by
  have hsign : Utf8.bytesOf "|" = [124] := rfl
  have hopen : Utf8.bytesOf "(" = [40] := rfl
  have hclose : Utf8.bytesOf ")" = [41] := rfl
  have hmember : ∀ m : TypeHint, Utf8.bytesOf (if m.isIntersection then
      "(" ++ m.render selfClass ++ ")" else m.render selfClass) = barredBytes selfClass m := by
    intro m
    rw [barredBytes]
    split
    · rw [Utf8.bytesOf_append, Utf8.bytesOf_append, hopen, hclose]
      rfl
    · rfl
  rw [typeBytes, TypeHint.render, bytesOf_joined hsign]
  simp [hmember, Function.comp_def]

section
variable (hpost : ∀ source, Compositional (post source))
  (hleaf : ∀ t, P t → IsPlainText (fun source => post source t) (typeBytes selfClass t))
include hpost hleaf

theorem isSimpleText_render (hh : h.IsSimpleOf P) :
    IsSimpleText (fun source => post source h) (typeBytes selfClass h) := by
  cases h with
  | nullable named =>
    rw [typeBytes_nullable]
    have hmark := isSimpleText_nullable (hleaf named hh)
    refine ⟨hmark.opens, hmark.begins, hmark.modest, hmark.joins, hmark.noGroup, fun source b => ?_⟩
    refine (hmark.reads source b).mono (fun _ hu => hu) fun k hk => ?_
    obtain ⟨hkind, n, hchildren, hn⟩ := hk
    exact (hpost source).nullable hkind hchildren hn
  | builtin name => exact isSimpleText_plain (hleaf _ hh)
  | cls fqn => exact isSimpleText_plain (hleaf _ hh)
  | _ => exact hh.elim

/-- A member of a union. -/
theorem isMemberText_render (hh : m.IsSimpleOf P ∨ m.IsMeetOf P) :
    IsMemberText m.isIntersection (fun source => post source m) (barredBytes selfClass m) := by
  rcases hh with hh | hh
  · rw [barredBytes, hh.notIntersection]
    exact isMemberText_simple (isSimpleText_render hpost hleaf hh)
  · cases m with
    | intersection members =>
      have hgroup := isMemberText_group hh.1 fun k hk => isSimpleText_render hpost hleaf (hh.2 k hk)
      rw [barredBytes, TypeHint.isIntersection, if_pos rfl, typeBytes_intersection]
      refine ⟨hgroup.opens, hgroup.begins, hgroup.modest, hgroup.group, fun source b => ?_⟩
      refine (hgroup.reads source b).mono (fun _ hu => hu) fun n hn => ?_
      exact (hpost source).intersection hn.1 hn.2
    | _ => exact hh.elim

/-- A type is read whole if its keywords and class names are read. -/
theorem isHintText_render (hh : h.IsBuiltOf P) :
    IsHintText (fun source => post source h.collapsed) (typeBytes selfClass h) := by
  have hunion : ∀ {members : List TypeHint}, members ≠ [] →
      (∀ m ∈ members, m.IsSimpleOf P ∨ m.IsMeetOf P) →
      IsHintText (fun source => post source (TypeHint.union members).collapsed)
        (joinBytes 124 (members.map (barredBytes selfClass))) := by
    intro members hne hall
    have hmembers : ∀ m ∈ members, IsMemberText m.isIntersection (fun source => post source m)
        (barredBytes selfClass m) := fun m hm => isMemberText_render hpost hleaf (hall m hm)
    obtain ⟨m, members, rfl⟩ := List.exists_cons_of_ne_nil hne
    have hm := hmembers m (by simp)
    refine ⟨hm.opens.append _, fun u => ?_, modest_joinBytes rfl hm.modest,
      fun source b g hg => reads_union hg (hpost source) hne hmembers⟩
    simpa [joinBytes] using hm.begins ((members.map (barredBytes selfClass)).flatMap (124 :: ·) ++ u)
  have hsimple : ∀ {t : TypeHint}, t.IsSimpleOf P →
      IsHintText (fun source => post source t) (typeBytes selfClass t) := by
    intro t ht
    have halone := @hunion [t] (by simp) (by simpa using .inl ht)
    simpa [joinBytes, barredBytes, TypeHint.collapsed, ht.notIntersection] using halone
  cases h with
  | union members =>
    rw [typeBytes_union]
    exact hunion hh.1 hh.2
  | intersection members =>
    obtain ⟨hne, hall⟩ := hh.resolve_left fun h => h.elim
    rw [typeBytes_intersection]
    have htexts : ∀ m ∈ members, IsSimpleText (fun source => post source m) (typeBytes selfClass m) :=
      fun m hm => isSimpleText_render hpost hleaf (hall m hm)
    have hreads : ∀ source b g, IsGap g → Reads source b typeHint
        (g ++ joinBytes 38 (members.map (typeBytes selfClass))) (EndsType b)
        (post source (TypeHint.intersection members).collapsed) := fun source b g hg =>
      reads_intersection hg (hpost source) hne (fun m hm => (hall m hm).notIntersection) htexts
    obtain ⟨m, members, rfl⟩ := List.exists_cons_of_ne_nil hne
    have hm := htexts m (by simp)
    refine ⟨hm.opens.append _, fun u => ?_, modest_joinBytes rfl hm.modest, hreads⟩
    simpa [joinBytes] using hm.begins ((members.map (typeBytes selfClass)).flatMap (38 :: ·) ++ u)
  | builtin name => exact hsimple (hh.resolve_right fun h => h.elim)
  | cls fqn => exact hsimple (hh.resolve_right fun h => h.elim)
  | nullable named => exact hsimple (hh.resolve_right fun h => h.elim)

end

end

/-! ## Types of declarations -/

/-- A text that is a type, of which nothing stands in the way of a comment around it. -/
structure IsTypeText (t : Bytes) : Prop where
  opens : Opens t
  begins : ∀ u, BeginsToken (t ++ u)
  modest : Modest t
  commentable : Commentable t
  reads : ∀ source b g, IsGap g → Reads source b typeHint (g ++ t) (EndsType b) Node.IsTypeNode

theorem IsTypeText.isHintText (h : IsTypeText t) : IsHintText (fun _ n => n.IsTypeNode) t :=
  ⟨h.opens, h.begins, h.modest, h.reads⟩

theorem isTypeNode_of {kind : Kind} {m : Node} (hk : kind.isType = true) (hm : m.kind = kind)
    (hns : ∀ n ∈ m.children, n.IsTypeNode) : m.IsTypeNode := by
  subst hm
  have hbare : isLandmark m.kind = false := by
    cases hk' : m.kind <;> rw [hk'] at hk <;> first | rfl | cases hk
  exact ⟨hk, isBare_of hbare fun n hn => (hns n hn).bare⟩

/-- A type of types is a type. -/
theorem compositional_isTypeNode : Compositional fun _ n => n.IsTypeNode := by
  have hall : ∀ {hs : List TypeHint} {ns : List Node},
      List.Forall₂ (fun _ (n : Node) => n.IsTypeNode) hs ns → ∀ n ∈ ns, n.IsTypeNode := by
    intro hs ns hns
    induction hns with
    | nil => simp
    | cons hn _ ih => simpa using ⟨hn, ih⟩
  refine ⟨fun hk hchildren hn => isTypeNode_of rfl hk ?_, fun hk hns => isTypeNode_of rfl hk (hall hns),
    fun hk hns => isTypeNode_of rfl hk (hall hns)⟩
  rw [hchildren]
  simpa using hn

/-- Keywords are names, and mean nothing else where a type may stand. -/
theorem word_spelling {name : String} (h : name ∈ TypeHint.spellings) :
    IsName (Utf8.bytesOf name) ∧ String.ofList (folded (Utf8.bytesOf name)) ≠ "namespace" ∧
      isVisibility (String.ofList (folded (Utf8.bytesOf name))) = false := by
  have hall : ∀ name ∈ TypeHint.spellings, IsName (Utf8.bytesOf name) ∧
      String.ofList (folded (Utf8.bytesOf name)) ≠ "namespace" ∧
      isVisibility (String.ofList (folded (Utf8.bytesOf name))) = false := by decide +kernel
  exact hall name h

section
variable {service : String} {h : TypeHint}

/-- A keyword is written as itself, or as the class that it stands for. -/
theorem typeBytes_builtin (hs : IsPath service) (name : String) :
    typeBytes (some service) (.builtin name) = Utf8.bytesOf name ∨
      ∃ s names, typeBytes (some service) (.builtin name) = pathBytes (s :: names) ∧
        ∀ t ∈ s :: names, IsName t := by
  rw [typeBytes, TypeHint.render, TypeHint.renderBuiltin]
  split
  · exact .inr hs
  · exact .inl rfl

theorem isPlainText_render (hs : IsPath service) (hh : h.IsPlain) :
    IsPlainText (fun _ n => n.IsTypeNode) (typeBytes (some service) h) := by
  have hpath : ∀ {s : Bytes} {names : List Bytes}, (∀ t ∈ s :: names, IsName t) →
      IsPlainText (fun _ n => n.IsTypeNode) (pathBytes (s :: names)) := by
    intro s names hnames
    have hrooted := isPlainText_rooted passed_nil (hnames s List.mem_cons_self)
      (segments_pathBytes fun t ht => hnames t (List.mem_cons_of_mem s ht))
    exact hrooted.mono fun _ _ hn => hn.type
  cases h with
  | builtin name =>
    obtain hword | ⟨s, names, hbytes, hnames⟩ := typeBytes_builtin hs name
    · obtain ⟨hname, hfolded, hmodest⟩ := word_spelling hh
      rw [hword]
      exact (isPlainText_word hname hfolded hmodest).mono fun _ _ hn => hn.type
    · rw [hbytes]
      exact hpath hnames
  | cls fqn =>
    obtain ⟨s, names, hbytes, hnames⟩ := hh
    rw [typeBytes, TypeHint.render, hbytes]
    exact hpath hnames
  | _ => exact hh.elim

theorem commentable_path {s : Bytes} {names : List Bytes} (hnames : ∀ t ∈ s :: names, IsName t) :
    Commentable (pathBytes (s :: names)) :=
  commentable_flatMap (by decide) fun t ht => commentable_name (hnames t ht)

theorem commentable_simple (hs : IsPath service) (hh : h.IsSimpleOf TypeHint.IsPlain) :
    Commentable (typeBytes (some service) h) := by
  have hplain : ∀ {t : TypeHint}, t.IsPlain → Commentable (typeBytes (some service) t) := by
    intro t ht
    cases t with
    | builtin name =>
      obtain hword | ⟨s, names, hbytes, hnames⟩ := typeBytes_builtin hs name
      · rw [hword]
        exact commentable_name (word_spelling ht).1
      · rw [hbytes]
        exact commentable_path hnames
    | cls fqn =>
      obtain ⟨s, names, hbytes, hnames⟩ := ht
      rw [typeBytes, TypeHint.render, hbytes]
      exact commentable_path hnames
    | _ => exact ht.elim
  cases h with
  | nullable named =>
    rw [typeBytes_nullable]
    exact (hplain hh).cons (by decide)
  | builtin name => exact hplain hh
  | cls fqn => exact hplain hh
  | _ => exact hh.elim

theorem commentable_render (hs : IsPath service) (hh : h.IsBuiltOf TypeHint.IsPlain) :
    Commentable (typeBytes (some service) h) := by
  have hmeet : ∀ {members : List TypeHint}, (∀ m ∈ members, m.IsSimpleOf TypeHint.IsPlain) →
      Commentable (typeBytes (some service) (.intersection members)) := by
    intro members hall
    rw [typeBytes_intersection]
    exact commentable_joinBytes (by decide) (List.forall_mem_map.2 fun m hm =>
      commentable_simple hs (hall m hm))
  cases h with
  | union members =>
    rw [typeBytes_union]
    refine commentable_joinBytes (by decide) (List.forall_mem_map.2 fun m hm => ?_)
    rcases hh.2 m hm with hsimple | hgroup
    · rw [barredBytes, hsimple.notIntersection]
      exact commentable_simple hs hsimple
    · cases m with
      | intersection inner =>
        rw [barredBytes, TypeHint.isIntersection, if_pos rfl]
        exact ((hmeet hgroup.2).append (Commentable.cons (by decide) (by simp [Commentable]))).cons
          (by decide)
      | _ => exact hgroup.elim
  | intersection members => exact hmeet (hh.resolve_left fun h => h.elim).2
  | builtin name => exact commentable_simple hs (hh.resolve_right fun h => h.elim)
  | cls fqn => exact commentable_simple hs (hh.resolve_right fun h => h.elim)
  | nullable named => exact commentable_simple hs (hh.resolve_right fun h => h.elim)

/-- A type that a declaration may have is read whole. -/
theorem isTypeText_render (hs : IsPath service) (hh : h.IsDeclarable) :
    IsTypeText (Utf8.bytesOf (h.render (some service))) := by
  have htext := @isHintText_render (some service) (fun _ _ n => n.IsTypeNode) _ _
    (fun _ => compositional_isTypeNode) (fun _ ht => isPlainText_render hs ht) hh
  exact ⟨htext.opens, htext.begins, htext.modest, commentable_render hs hh, htext.reads⟩

end

end Php

end FacadeStubs
