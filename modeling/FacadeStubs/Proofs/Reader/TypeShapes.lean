import FacadeStubs.Proofs.Reader.Constants
import FacadeStubs.Proofs.Reader.Runs
import FacadeStubs.Proofs.Reader.Types

/-!
# The form of types that were read

Whatever type the reader finds in a source, the analysis takes it for one of the form that types are
written in: keywords and classes with question marks, rows of these with ampersands, and rows of both
with bars.

Results:
* `spelling_primitive`: a type keyword as the analysis takes it, whatever case it was written in.
* `shape_typeHint`, `shape_returnType`: the form of every type that is read where nothing goes on it.
* `IsReturnType.hasShape`: the form of every return type of a method.
-/
namespace FacadeStubs.Php

open Lexical Reader Analysis

/-! ## Keywords -/

/-- A text that is a word: no blank, and not nothing. -/
def IsUnspaced (t : List Char) : Prop := t ≠ [] ∧ ∀ x ∈ t, isBlank x = false

instance (t : List Char) : Decidable (IsUnspaced t) :=
  decidable_of_iff (t ≠ [] ∧ t.all (fun x => !isBlank x) = true) (by simp [IsUnspaced])

theorem spellings_unspaced : ∀ word ∈ TypeHint.spellings, IsUnspaced word.toList := by
  decide +kernel

/-- The text of a node, as the analysis compares it with words. -/
theorem Node.lowered_text {source : Bytes} {n : Node} {chars : List Char} {word : String}
    (h : n.bytes source = Utf8.encode chars) (hchars : lowered chars = word.toList)
    (hword : word ∈ TypeHint.spellings) : lowerCase (trimmed (n.text source)) = word := by
  obtain ⟨hne, hunspaced⟩ := spellings_unspaced word hword
  have htext : n.text source = String.ofList chars :=
    Node.text_of_bytes (by rw [Utf8.bytesOf_ofList]; exact h)
  have hsolid : Solid chars := by
    refine solid_of_all ?_ fun x hx => ?_
    · intro hnil
      rw [hnil] at hchars
      exact hne hchars.symm
    · cases hblank : isBlank x with
      | false => rfl
      | true =>
        have hlower := hunspaced x.toLower (hchars ▸ List.mem_map_of_mem hx)
        rw [isBlank_toLower hblank] at hlower
        cases hlower
  have hlist : (String.ofList chars).toList = chars := String.toList_ofList
  rw [htext, trimmed_solid (by rw [hlist]; exact hsolid), lowerCase, hlist, hchars]
  exact String.ofList_toList

/-- A type keyword as the analysis takes it, whatever case it was written in. -/
theorem spelling_primitive {w : Bytes} (h : atPrimitiveType w = true) :
    ∃ chars word, w.take (nameLength w) = Utf8.encode chars ∧ lowered chars = word.toList ∧
      word ∈ TypeHint.spellings := by
  simp only [atPrimitiveType, Bool.or_eq_true, beq_iff_eq] at h
  rcases h with (h | h) | h
  · have hfolded : folded (w.take (nameLength w)) = 'c' :: "allable".toList := by
      rw [← String.toList_ofList (l := folded _), ← wordAt, h]
      rfl
    obtain ⟨chars, hchars, hlower | ⟨hs, -⟩⟩ := chars_of_folded hfolded (by decide) (by decide)
    · exact ⟨chars, "callable", hchars, hlower, by decide⟩
    · cases hs
  · have hfolded : folded (w.take (nameLength w)) = 's' :: "tatic".toList := by
      rw [← String.toList_ofList (l := folded _), ← wordAt, h]
      rfl
    obtain ⟨chars, hchars, hlower | ⟨-, hlower⟩⟩ := chars_of_folded hfolded (by decide) (by decide)
    · exact ⟨chars, "static", hchars, hlower, by decide⟩
    · exact ⟨chars, "ſtatic", hchars, hlower, by decide⟩
  · have hplain : ∀ word ∈ primitiveTypes, IsAscii word.toList ∧
        lowered word.toList = word.toList ∧ word ∈ TypeHint.spellings := by decide +kernel
    obtain ⟨hascii, hlower, hword⟩ := hplain (exactWordAt w) (by simpa using h)
    refine ⟨(exactWordAt w).toList, exactWordAt w, bytesOf_ascii ?_ hascii, hlower, hword⟩
    rw [exactWordAt, String.toList_ofList]

/-! ## Types -/

section
variable {source : Bytes} {c d : Cursor} {n : Node}

theorem typeHints_eq_map (source : Bytes) (names : NameScope) (ns : List Node) :
    typeHints source names ns = ns.map (Analysis.typeHint source names) := by
  induction ns with
  | nil => rfl
  | cons n ns ih => rw [typeHints, ih, List.map_cons]

theorem isNamed_namedType (names : NameScope) (text : String) : (namedType names text).IsNamed := by
  unfold namedType
  dsimp only
  split
  · rename_i h
    exact List.mem_cons_of_mem _ (by simpa using h)
  · trivial

/-- The type of a keyword of its own. -/
theorem typeHint_primitive (names : NameScope) (start stop : Nat) (children : List Node) :
    Analysis.typeHint source names (.mk .primitiveType start stop children) =
      .builtin (lowerCase (trimmed (Node.text source (.mk .primitiveType start stop [])))) := by
  rw [Analysis.typeHint.eq_def]

/-- The type of a word or name. -/
theorem typeHint_named (names : NameScope) (start stop : Nat) (children : List Node) :
    Analysis.typeHint source names (.mk .namedType start stop children) =
      namedType names (trimmed (Node.text source (.mk .namedType start stop []))) := by
  rw [Analysis.typeHint.eq_def]

/-- The type of a node with a question mark in front. -/
theorem typeHint_optional {names : NameScope} {m : Node} (hm : m.kind = .optionalType)
    (hchildren : m.children = [n]) :
    Analysis.typeHint source names m = .nullable (Analysis.typeHint source names n) := by
  obtain ⟨kind, start, stop, children⟩ := m
  obtain rfl : kind = .optionalType := hm
  obtain rfl : children = [n] := hchildren
  rw [Analysis.typeHint.eq_def]

/-- The type of a node of types with ampersands between them. -/
theorem typeHint_intersection {names : NameScope} {m : Node} (hm : m.kind = .intersectionType) :
    Analysis.typeHint source names m = .intersection (m.children.map (Analysis.typeHint source names)) := by
  obtain ⟨kind, start, stop, children⟩ := m
  obtain rfl : kind = .intersectionType := hm
  rw [Analysis.typeHint.eq_def, ← typeHints_eq_map]
  rfl

/-- The type of a node of types with bars between them. -/
theorem typeHint_union {names : NameScope} {m : Node} (hm : m.kind = .unionType) :
    Analysis.typeHint source names m = .union (m.children.map (Analysis.typeHint source names)) := by
  obtain ⟨kind, start, stop, children⟩ := m
  obtain rfl : kind = .unionType := hm
  rw [Analysis.typeHint.eq_def, ← typeHints_eq_map]
  rfl

theorem isNamed_primitive {chars : List Char} {word : String} (h : n.bytes source = Utf8.encode chars)
    (hchars : lowered chars = word.toList) (hword : word ∈ TypeHint.spellings) (names : NameScope) :
    (Analysis.typeHint source names (.mk .primitiveType n.start n.stop [])).IsNamed := by
  have htext := Node.lowered_text (n := .mk .primitiveType n.start n.stop []) h hchars hword
  rw [typeHint_primitive]
  show lowerCase _ ∈ TypeHint.spellings
  rw [htext]
  exact hword

theorem ensures_plainType :
    Ensures source plainType fun n => ∀ names, (Analysis.typeHint source names n).IsNamed := by
  intro c d n hc hrun
  unfold plainType at hrun
  rw [run_bind_some run_ahead] at hrun
  by_cases hprimitive : atPrimitiveType (c.rest.drop (gaps c.rest)) = true
  · rw [if_pos hprimitive] at hrun
    obtain ⟨m, hword, rfl⟩ := of_yields hrun
    obtain ⟨chars, word, hbytes, hlower, hmem⟩ := spelling_primitive hprimitive
    rw [← bytes_identifier hc hword] at hbytes
    obtain ⟨hd, hmode, -⟩ := ensures_identifier hc hword
    exact ⟨hd, hmode, isNamed_primitive hbytes hlower hmem⟩
  · rw [if_neg hprimitive] at hrun
    obtain ⟨m, hname, rfl⟩ := of_yields hrun
    obtain ⟨hd, hmode, -⟩ := ensures_anyName hc hname
    refine ⟨hd, hmode, fun names => ?_⟩
    rw [typeHint_named]
    generalize trimmed _ = text
    exact isNamed_namedType names text

theorem ensures_simpleType : Ensures source simpleType fun n =>
    ∀ names, (Analysis.typeHint source names n).IsSimpleOf TypeHint.IsNamed := by
  unfold simpleType
  refine (ensures_look fun c => ⟨_, run_nextIs "?"⟩).bind fun marked _ => ?_
  cases marked with
  | true =>
    have hinner : Ensures source (do symbol "?"; return [← plainType]) fun ns =>
        ∃ n, ns = [n] ∧ ∀ names, (Analysis.typeHint source names n).IsNamed :=
      (ensures_symbol "?").bind fun _ _ => ensures_plainType.yields fun n hn => ⟨n, rfl, hn⟩
    refine (ensures_nodeOf hinner).mono fun m hm names => ?_
    obtain ⟨hkind, n, hchildren, hn⟩ := hm
    rw [typeHint_optional hkind hchildren]
    exact hn names
  | false => exact ensures_plainType.mono fun n hn names => (hn names).isSimpleOf

theorem ensures_joinedType : Ensures source joinedType fun n =>
    ∀ names, (Analysis.typeHint source names n).IsSimpleOf TypeHint.IsNamed := by
  unfold joinedType
  refine (ensures_look exists_behindOperand).bind fun _ _ => ensures_require.bind fun _ _ => ?_
  exact (ensures_symbol "&").bind fun _ _ => ensures_simpleType

theorem isMeetOf_intersection {names : NameScope} {m : Node} (hm : m.kind = .intersectionType)
    (hne : m.children ≠ [])
    (hall : ∀ n ∈ m.children, (Analysis.typeHint source names n).IsSimpleOf TypeHint.IsNamed) :
    (Analysis.typeHint source names m).IsMeetOf TypeHint.IsNamed := by
  rw [typeHint_intersection hm]
  exact ⟨by simpa using hne, List.forall_mem_map.2 hall⟩

theorem ensures_joinedRow : Ensures source (do return (← simpleType) :: (← many joinedType)) fun ns =>
    ns ≠ [] ∧ ∀ n ∈ ns, ∀ names, (Analysis.typeHint source names n).IsSimpleOf TypeHint.IsNamed := by
  refine ensures_simpleType.bind fun n hn => ?_
  exact (ensures_many ensures_joinedType).yields fun ns hns => ⟨by simp, by simpa using ⟨hn, hns⟩⟩

theorem ensures_groupedType : Ensures source groupedType fun m =>
    ∀ names, (Analysis.typeHint source names m).IsMeetOf TypeHint.IsNamed := by
  refine (ensures_between (ensures_nodeOf ensures_joinedRow)).mono fun m hm names => ?_
  obtain ⟨hkind, hne, hall⟩ := hm
  exact isMeetOf_intersection hkind hne fun n hn => hall n hn names

theorem ensures_unionMember : Ensures source unionMember fun m => ∀ names,
    (Analysis.typeHint source names m).IsSimpleOf TypeHint.IsNamed ∨
      (Analysis.typeHint source names m).IsMeetOf TypeHint.IsNamed := by
  unfold unionMember
  refine (ensures_look fun c => ⟨_, run_nextIs "("⟩).bind fun grouped _ => ?_
  cases grouped with
  | true => exact ensures_groupedType.mono fun m hm names => .inr (hm names)
  | false => exact ensures_simpleType.mono fun m hm names => .inl (hm names)

/-- Only behind an opening parenthesis is a member a row in parentheses. -/
theorem shape_unionMember (hc : c.In source) (h : unionMember.run c = some (n, d)) :
    d.In source ∧ d.tagEnds = c.tagEnds ∧ ∀ names, if beginsWith "(" (c.rest.drop (gaps c.rest))
      then (Analysis.typeHint source names n).IsMeetOf TypeHint.IsNamed
      else (Analysis.typeHint source names n).IsSimpleOf TypeHint.IsNamed := by
  unfold unionMember at h
  rw [run_bind_some (run_nextIs _)] at h
  split at h
  · obtain ⟨hd, hmode, hn⟩ := ensures_groupedType hc h
    exact ⟨hd, hmode, fun names => by simp [*]⟩
  · obtain ⟨hd, hmode, hn⟩ := ensures_simpleType hc h
    exact ⟨hd, hmode, fun names => by simp [*]⟩

theorem ensures_barredMember : Ensures source barredMember fun m => ∀ names,
    (Analysis.typeHint source names m).IsSimpleOf TypeHint.IsNamed ∨
      (Analysis.typeHint source names m).IsMeetOf TypeHint.IsNamed := by
  unfold barredMember
  refine (ensures_look (exists_thenIs "|")).bind fun _ _ => ensures_require.bind fun _ _ => ?_
  exact (ensures_symbol "|").bind fun _ _ => ensures_unionMember

/-- In every scope a type is built from keywords and classes. -/
structure Node.IsBuilt (source : Bytes) (n : Node) : Prop where
  built : ∀ names, (Analysis.typeHint source names n).IsBuiltOf TypeHint.IsNamed

/-- The form of a type that was read: no row of one member but one in parentheses. -/
structure HasShape (source : Bytes) (n : Node) : Prop extends n.IsBuilt source where
  collapsed : ∀ names, (Analysis.typeHint source names n).collapsed = Analysis.typeHint source names n

theorem shape_simple (h : ∀ names, (Analysis.typeHint source names n).IsSimpleOf TypeHint.IsNamed) :
    HasShape source n where
  built names := (h names).isBuiltOf
  collapsed names := (h names).collapsed

theorem built_intersection (hkind : n.kind = .intersectionType) (hne : n.children ≠ [])
    (h : ∀ m ∈ n.children, ∀ names, (Analysis.typeHint source names m).IsSimpleOf TypeHint.IsNamed) :
    n.IsBuilt source := by
  refine ⟨fun names => ?_⟩
  have hmeet := isMeetOf_intersection hkind hne fun m hm => h m hm names
  rw [typeHint_intersection hkind] at hmeet ⊢
  exact .inr hmeet

theorem shape_intersection {first second : Node} {more : List Node} (hkind : n.kind = .intersectionType)
    (hchildren : n.children = first :: second :: more)
    (h : ∀ m ∈ n.children, ∀ names, (Analysis.typeHint source names m).IsSimpleOf TypeHint.IsNamed) :
    HasShape source n := by
  refine ⟨built_intersection hkind (by simp [hchildren]) h, fun names => ?_⟩
  rw [typeHint_intersection hkind, hchildren]
  rfl

theorem shape_union {first : Node} {more : List Node} (hkind : n.kind = .unionType)
    (hchildren : n.children = first :: more)
    (h : ∀ m ∈ n.children, ∀ names, (Analysis.typeHint source names m).IsSimpleOf TypeHint.IsNamed ∨
      (Analysis.typeHint source names m).IsMeetOf TypeHint.IsNamed)
    (halone : more = [] → ∀ names, (Analysis.typeHint source names first).IsMeetOf TypeHint.IsNamed) :
    HasShape source n where
  built names := by
    rw [typeHint_union hkind]
    exact ⟨by simp [hchildren], List.forall_mem_map.2 fun m hm => h m hm names⟩
  collapsed names := by
    rw [typeHint_union hkind, hchildren]
    cases more with
    | nil => exact (halone rfl names).collapsed_union
    | cons _ _ => rfl

/-- A type is built from keywords and classes, and has the form of its node if nothing behind it goes on
it. -/
theorem shape_typeHint (hc : c.In source) (h : typeHint.run c = some (n, d)) :
    d.tagEnds = c.tagEnds ∧ n.IsBuilt source ∧
      ((∀ w, behindOperand.run d = some (w, d) → joinsTypes w = false) → HasShape source n) := by
  unfold typeHint at h
  rw [run_bind_some run_gap, run_bind_some run_position, run_bind_some (run_nextIs _)] at h
  obtain ⟨first, e, hfirst, h⟩ := run_bind_eq_some h
  obtain ⟨he, hmode, hshape⟩ := shape_unionMember (hc.past _) hfirst
  generalize beginsWith "(" _ = grouped at h hshape
  obtain ⟨w, hw⟩ := exists_behindOperand e
  rw [run_bind_some hw] at h
  by_cases hjoin : (!grouped && joinsTypes w) = true
  · rw [if_pos hjoin] at h
    obtain ⟨hungrouped, hjoins⟩ := Bool.and_eq_true_iff.1 hjoin
    obtain rfl : grouped = false := by simpa using hungrouped
    obtain ⟨more, e', hmany, hnode⟩ := run_bind_eq_some h
    obtain ⟨he', hmode', hmore⟩ := ensures_many ensures_joinedType he hmany
    obtain ⟨-, hmode'', hkind, hchildren⟩ := ensures_nodeFrom .intersectionType _ _ he' hnode
    have hsimple : ∀ m ∈ n.children, ∀ names,
        (Analysis.typeHint source names m).IsSimpleOf TypeHint.IsNamed := by
      rw [hchildren]
      exact List.forall_mem_cons.2 ⟨hshape, hmore⟩
    refine ⟨(hmode''.trans hmode').trans hmode, built_intersection hkind (by simp [hchildren]) hsimple,
      fun hends => ?_⟩
    cases more with
    | nil =>
      -- the ampersand behind the first type would still be there
      obtain rfl := of_many_nil hmany
      have hstay : d = e' := by
        unfold nodeFrom at hnode
        rw [run_bind_some run_position] at hnode
        cases hnode
        rfl
      subst hstay
      rw [hends w hw] at hjoins
      cases hjoins
    | cons second more => exact shape_intersection hkind hchildren hsimple
  · rw [if_neg hjoin] at h
    obtain ⟨more, e', hmany, h⟩ := run_bind_eq_some h
    obtain ⟨he', hmode', hmore⟩ := ensures_many ensures_barredMember he hmany
    have hmember : ∀ names, (Analysis.typeHint source names first).IsSimpleOf TypeHint.IsNamed ∨
        (Analysis.typeHint source names first).IsMeetOf TypeHint.IsNamed := by
      intro names
      cases grouped with
      | false => exact .inl (hshape names)
      | true => exact .inr (hshape names)
    by_cases halone : (more.isEmpty && !grouped) = true
    · rw [if_pos halone] at h
      cases h
      obtain ⟨-, hungrouped⟩ := Bool.and_eq_true_iff.1 halone
      obtain rfl : grouped = false := by simpa using hungrouped
      have hsimple := shape_simple hshape
      exact ⟨hmode'.trans hmode, hsimple.toIsBuilt, fun _ => hsimple⟩
    · rw [if_neg halone] at h
      obtain ⟨-, hmode'', hkind, hchildren⟩ := ensures_nodeFrom .unionType _ _ he' h
      have hunion : HasShape source n := by
        refine shape_union hkind hchildren ?_ fun hnil names => ?_
        · rw [hchildren]
          exact List.forall_mem_cons.2 ⟨hmember, hmore⟩
        · obtain rfl : grouped = true := by simpa [hnil] using halone
          exact hshape names
      exact ⟨(hmode''.trans hmode').trans hmode, hunion.toIsBuilt, fun _ => hunion⟩

/-- The keyword of what never returns. -/
theorem isNamed_never {m : Node} (hc : c.In source) (h : identifier.run c = some (m, d))
    (hword : (exactWordAt (c.rest.drop (gaps c.rest)) == "never") = true) (names : NameScope) :
    (Analysis.typeHint source names (.mk .primitiveType m.start m.stop [])).IsNamed := by
  have hbytes : m.bytes source = Utf8.encode "never".toList := by
    rw [bytes_identifier hc h]
    refine bytesOf_ascii ?_ (by decide)
    rw [← String.toList_ofList (l := List.map _ _)]
    exact congrArg String.toList (beq_iff_eq.1 hword)
  have hspelling : "never" ∈ TypeHint.spellings := by decide
  exact isNamed_primitive hbytes (by decide) hspelling names

/-- The same of a return type, where the keyword of what never returns stands alone. -/
theorem shape_returnType (hc : c.In source) (h : returnType.run c = some ([n], d)) :
    d.tagEnds = c.tagEnds ∧ n.IsBuilt source ∧
      ((∀ w, behindOperand.run d = some (w, d) → joinsTypes w = false) → HasShape source n) := by
  unfold returnType at h
  obtain ⟨b, hb⟩ := exists_thenIs ":" c
  rw [run_bind_some hb] at h
  cases b with
  | false => cases h
  | true =>
    rw [if_pos rfl] at h
    obtain ⟨_, e, hcolon, h⟩ := run_bind_eq_some h
    obtain ⟨he, hmode, -⟩ := ensures_symbol ":" hc hcolon
    rw [run_bind_some run_ahead] at h
    by_cases hnever : (exactWordAt (e.rest.drop (gaps e.rest)) == "never") = true
    · rw [if_pos hnever] at h
      obtain ⟨m, hword, hpure⟩ := of_yields h
      obtain rfl := (List.cons.inj hpure).1
      have hnamed := isNamed_never he hword hnever
      obtain ⟨-, hmode', -⟩ := ensures_identifier he hword
      have hsimple := shape_simple fun names => (hnamed names).isSimpleOf
      exact ⟨hmode'.trans hmode, hsimple.toIsBuilt, fun _ => hsimple⟩
    · rw [if_neg hnever] at h
      obtain ⟨m, htype, hpure⟩ := of_yields h
      obtain rfl : n = m := (List.cons.inj hpure).1
      obtain ⟨hmode', hbuilt, hshape⟩ := shape_typeHint he htype
      exact ⟨hmode'.trans hmode, hbuilt, hshape⟩

/-! ## Return types of methods -/

/-- A return type as methods have it: a body follows, or the end of the statement. -/
def IsReturnType (source : Bytes) (n : Node) : Prop :=
  ∃ c d : Cursor, c.In source ∧ c.tagEnds = true ∧ returnType.run c = some ([n], d) ∧
    ((thenIs "\x7b").run d = some (true, d) ∨ ∃ e, semicolon.run d = some ((), e))

/-- A sign other than the ampersand joins no types. -/
theorem joinsTypes_other {text : String} {a : Char} {rest : List Char} {w : Bytes}
    (h : beginsWith text w = true) (htext : text.toList = a :: rest) (ha : ascii a ≠ ascii '&') :
    joinsTypes w = false := by
  cases w with
  | nil => rfl
  | cons x w =>
    have hx : ascii a = x := by
      simp only [beginsWith, htext, beginsWith.go, Bool.and_eq_true, beq_iff_eq] at h
      exact h.1
    have hsign : (x == ascii '&') = false := beq_eq_false_iff_ne.2 (hx ▸ ha)
    simp only [joinsTypes, hsign, Bool.false_and]

theorem ends_body {w : Bytes} (h : (thenIs "\x7b").run d = some (true, d))
    (hw : behindOperand.run d = some (w, d)) : joinsTypes w = false := by
  obtain ⟨w', hw', hbegins⟩ := of_yields h
  obtain rfl : w' = w := (Prod.mk.inj (Option.some.inj (hw'.symm.trans hw))).1
  exact joinsTypes_other hbegins.symm rfl (by decide)

theorem ends_statement {e : Cursor} {w : Bytes} (hd : d.tagEnds = true)
    (h : semicolon.run d = some ((), e)) (hw : behindOperand.run d = some (w, d)) :
    joinsTypes w = false := by
  have hbehind : behindOperand.run d =
      some (if (gapsBeforeEnd 0 true d.rest).2 then [] else d.rest.drop (gapsBeforeEnd 0 true d.rest).1, d) := by
    unfold behindOperand
    rw [run_bind_some run_remaining, run_bind_some run_get, if_pos hd]
    rfl
  obtain rfl := (Prod.mk.inj (Option.some.inj (hbehind.symm.trans hw))).1
  unfold semicolon at h
  rw [run_bind_some run_remaining] at h
  cases hended : (gapsBeforeEnd 0 true d.rest).2 with
  | true => rfl
  | false =>
    simp only [hended, Bool.false_eq_true, if_false] at h
    obtain ⟨_, d', hsign, -⟩ := run_bind_eq_some h
    exact joinsTypes_other (of_require hsign).1 rfl (by decide)

theorem IsReturnType.hasShape (h : IsReturnType source n) : HasShape source n := by
  obtain ⟨c, d, hc, hmode, hrun, hend⟩ := h
  obtain ⟨hmode', -, hshape⟩ := shape_returnType hc hrun
  apply hshape
  intro w hw
  rcases hend with hbody | ⟨e, hend⟩
  · exact ends_body hbody hw
  · exact ends_statement (hmode'.trans hmode) hend hw

end

end FacadeStubs.Php
