import FacadeStubs.Proofs.Reader.Atoms
import FacadeStubs.Proofs.Reader.Calls

/-!
# Paths and new objects as operands

The source text that an analysis keeps stands for a value that it does not know: a constant by its path,
or a new object of a class. Both are read whole as one operand, whatever may follow it.

Results:
* `isAtom_path`: a constant by its path from the root.
* `isAtom_creation`: a new object of a class by its path, with or without parentheses behind it.
-/
namespace FacadeStubs.Php

open Lexical Reader

/-! ## Paths -/

theorem pathBytes_cons (s : Bytes) (names : List Bytes) (u : Bytes) :
    pathBytes (s :: names) ++ u = 92 :: (s ++ (pathBytes names ++ u)) := by simp [pathBytes]

theorem isClosed_path {names : List Bytes} (hne : names ≠ []) (hnames : ∀ t ∈ names, IsName t) (t : Bytes) :
    isClosed (t ++ pathBytes names) = false := by
  obtain ⟨names, s, rfl⟩ := List.eq_nil_or_concat names |>.resolve_left hne
  have hlast : pathBytes (names ++ [s]) = pathBytes names ++ [92] ++ s := by simp [pathBytes]
  rw [List.concat_eq_append] at hnames ⊢
  rw [hlast, ← List.append_assoc]
  exact isClosed_name (hnames s (by simp)) _

/-- A constant by its path from the root. -/
theorem isAtom_path {s : Bytes} {names : List Bytes} (hnames : ∀ t ∈ s :: names, IsName t) :
    IsAtom (pathBytes (s :: names)) := by
  have hfirst := pathBytes_cons s names
  have hself : pathBytes (s :: names) = 92 :: (s ++ pathBytes names) := by simpa using hfirst []
  refine ⟨fun u => ?_, ⟨92, _, hself, rfl⟩, fun u _ => ?_, fun long n c u htag hsize hr hu => ?_⟩
  · rw [hfirst]
    exact beginsToken_solid rfl
  · rw [hfirst]
    have hword : wordAt (92 :: (s ++ (pathBytes names ++ u))) = "" := wordAt_boundary (boundary_cons rfl)
    rw [hword]
    rfl
  · have hclosed : isClosed (pathBytes (s :: names)) = false :=
      isClosed_path (List.cons_ne_nil s names) hnames []
    have hends : EndsPath c.tagEnds u := by
      rw [htag]
      exact endsPath_inner (hu.boundary hclosed) hu.settled.backslash
    obtain ⟨hs, hnames⟩ := List.forall_mem_cons.1 hnames
    have hname := run_anyName_absolute hs hnames hends hsize hr
    have hprimary := primary_absolute (g := Grammar.upTo long n) (hr.trans (hfirst u)) hname
    refine ⟨.qualifiedName, [], .value, .primary, rfl, by simp, .inl rfl, ?_⟩
    exact operandWith_value (d := c.past (pathBytes (s :: names)).length) htag
      (by rw [Cursor.past_rest_append hr]; exact hu.settled) hprimary

/-! ## New objects -/

section
variable (long : Bool) (n : Nat) {c : Cursor} {u : Bytes}

/-- Parentheses with nothing in them. -/
theorem run_arguments_nil {g k : Bytes} (hg : IsGap g) (hk : IsGap k) (ht : c.tagEnds = false)
    (hr : c.rest = g ++ 40 :: (k ++ 41 :: u)) : ∃ x, x.IsBare ∧
      (arguments (Grammar.upTo long n)).run c = some (x, c.past (g.length + (k.length + 2))) := by
  have hclose : BeginsToken (41 :: u) := beginsToken_solid rfl
  have hgap : gaps c.rest = g.length := by rw [hr, hg.gaps (beginsToken_solid rfl)]
  have hrest : (c.past g.length).rest = 40 :: (k ++ 41 :: u) := Cursor.past_rest_append hr
  have hopen : gaps (c.past g.length).rest = 0 := by rw [hrest]; exact (beginsToken_solid rfl).gaps
  have hinside : ((c.past g.length).past 1).rest = k ++ 41 :: u := by
    rw [Cursor.past_rest, hrest]
    rfl
  have hnext : Next ((c.past g.length).past 1).rest (41 :: u) := by
    rw [hinside]
    exact next_append hk hclose
  have hdots : partialCall.run ((c.past g.length).past 1) = none := by
    have hgap' : gaps ((c.past g.length).past 1).rest = k.length := by rw [hinside, hk.gaps hclose]
    have hend : (((c.past g.length).past 1).past k.length).rest = 41 :: u := Cursor.past_rest_append hinside
    refine run_bind_none (run_nodeOf_none hgap' (run_bind_none (run_symbol_none ?_)))
    rw [hend, hclose.gaps]
    rfl
  have hcomma : comma.run ((c.past g.length).past 1) = none := by
    unfold comma
    rw [run_bind_some (hnext.run_thenIs _)]
    exact run_bind_none (run_require_false rfl)
  have hlist : (partialCall <|> openList (argument (Grammar.upTo long n))).run ((c.past g.length).past 1) =
      some ([], ((c.past g.length).past 1).past 0) := by
    have hnone : (commaList1 (argument (Grammar.upTo long n))).run ((c.past g.length).past 1) = none :=
      run_bind_none (run_argument_none hnext)
    have hempty : (commaList1 (argument (Grammar.upTo long n)) <|> pure []).run
        ((c.past g.length).past 1) = some ([], (c.past g.length).past 1) := by
      rw [run_orElse, hnone]
      rfl
    rw [run_orElse, hdots]
    unfold openList
    rw [Option.none_or, run_bind_some hempty, run_bind_some (run_maybe_none hcomma)]
    rfl
  have hbetween := run_between "(" ")" (c := c.past g.length) (k := 0) (n := 0) (m := k.length) rfl rfl ht hopen
    (by rw [hrest]; rfl) hlist (by rw [hrest]; exact hk.gaps hclose) (by
      rw [hrest]
      simp [← List.drop_drop]
      rfl)
  unfold arguments
  have hnode : (nodeOf .arguments _).run c = _ := run_nodeOf hgap hbetween
  have hlength : g.length + (0 + 1 + 0 + (k.length + 1)) = g.length + (k.length + 2) := by omega
  rw [Cursor.past_past, hlength] at hnode
  have hbare : ∀ i j, (Node.mk .arguments i j []).IsBare := fun _ _ => rfl
  exact ⟨_, hbare _ _, hnode⟩

/-- What may stand behind the class of a new object: nothing, or parentheses with nothing in them. -/
inductive IsCreationTail : Bytes → Prop
  | none : IsCreationTail []
  | parentheses {g k : Bytes} : IsGap g → IsGap k → IsCreationTail (g ++ 40 :: (k ++ [41]))

variable {t : Bytes}

/-- It ends the path in front of it. -/
theorem IsCreationTail.behindPath (h : IsCreationTail t) (hbound : t = [] → Boundary u)
    (hu : Settled (u.drop (gaps u))) : Boundary (t ++ u) ∧
      beginsWith "\\" ((t ++ u).drop (gaps (t ++ u))) = false ∧
        beginsWith "::" ((t ++ u).drop (gaps (t ++ u))) = false := by
  cases h with
  | none => exact ⟨hbound rfl, hu.backslash, hu.colons⟩
  | @parentheses g k hg hk =>
    have hrest : g ++ 40 :: (k ++ [41]) ++ u = g ++ 40 :: (k ++ 41 :: u) := by simp
    have hopen : BeginsToken (40 :: (k ++ 41 :: u)) := beginsToken_solid rfl
    rw [hrest, (next_append hg hopen).drop_gaps]
    exact ⟨hg.boundary (boundary_cons rfl), rfl, rfl⟩

theorem IsCreationTail.run_maybeArguments (h : IsCreationTail t) (hu : Settled (u.drop (gaps u)))
    (ht : c.tagEnds = false) (hr : c.rest = t ++ u) : ∃ args : List Node, (∀ m ∈ args, m.IsBare) ∧
      (maybeArguments (Grammar.upTo long n)).run c = some (args, c.past t.length) := by
  cases h with
  | none =>
    refine ⟨[], by simp, ?_⟩
    unfold maybeArguments
    rw [run_bind_some (run_thenIs ht _), hr, List.nil_append, hu.parenthesis]
    rfl
  | @parentheses g k hg hk =>
    have hrest : c.rest = g ++ 40 :: (k ++ 41 :: u) := by simp [hr]
    have hopen : (thenIs "(").run c = some (true, c) := by
      rw [run_thenIs ht, hrest, (next_append hg (beginsToken_solid rfl)).drop_gaps]
      rfl
    have hlength : (g ++ 40 :: (k ++ [41])).length = g.length + (k.length + 2) := by simp
    obtain ⟨x, hx, hrun⟩ := run_arguments_nil long n hg hk ht hrest
    refine ⟨[x], by simpa using hx, ?_⟩
    unfold maybeArguments
    rw [run_bind_some hopen, hlength]
    exact run_bind_some hrun

/-- A class by its path, in front of what goes it on neither as a path nor to a property. -/
theorem run_classReference_path {s : Bytes} {names : List Bytes} (hnames : ∀ t ∈ s :: names, IsName t)
    (hbound : Boundary u) (hpath : beginsWith "\\" (u.drop (gaps u)) = false)
    (hcolons : beginsWith "::" (u.drop (gaps u)) = false) (ht : c.tagEnds = false)
    (hsize : c.rest.length ≤ c.size) (hr : c.rest = pathBytes (s :: names) ++ u) :
    ∃ x, x.IsBare ∧ (classReference (Grammar.upTo long n)).run c =
      some (x, c.past (pathBytes (s :: names)).length) := by
  have hfirst : c.rest = 92 :: (s ++ (pathBytes names ++ u)) := hr.trans (pathBytes_cons s names u)
  have hgap : gaps c.rest = 0 := by rw [hfirst]; exact (beginsToken_solid rfl).gaps
  have hends : EndsPath c.tagEnds u := by rw [ht]; exact endsPath_inner hbound hpath
  obtain ⟨hs, hnames⟩ := List.forall_mem_cons.1 hnames
  have hname := run_anyName_absolute hs hnames hends hsize hr
  have hstatic : atStaticProperty (u.drop (gaps u)) = false := by
    unfold atStaticProperty
    rw [hcolons, Bool.false_and]
  have hopen : beginsWith "(" (92 :: (s ++ (pathBytes names ++ u))) = false := rfl
  have hdollar : beginsWith "$" (92 :: (s ++ (pathBytes names ++ u))) = false := rfl
  refine ⟨.mk .qualifiedName c.offset (c.offset + (pathBytes (s :: names)).length) [], rfl, ?_⟩
  unfold classReference
  rw [run_bind_some run_turns, run_bind_some run_ahead, hgap, List.drop_zero, hfirst]
  simp only [hopen, hdollar, Bool.false_eq_true, if_false]
  rw [run_bind_some hname, run_bind_some (run_behindOperand (c := c.past _) ht),
    Cursor.past_rest_append hr, hstatic]
  rfl

end

/-- The word in front of a new object. -/
def IsNew (w : Bytes) : Prop := w ∈ spellings [110, 101, 119]

instance (w : Bytes) : Decidable (IsNew w) := inferInstanceAs (Decidable (_ ∈ _))

theorem IsNew.isWord {w : Bytes} (h : IsNew w) : IsWord w ∧ String.ofList (folded w) = "new" := by
  have hall : ∀ w ∈ spellings [110, 101, 119], IsWord w ∧ String.ofList (folded w) = "new" := by decide
  exact hall w h

/-- Behind its word, the class of a new object and what stands behind the class are read. -/
theorem run_objectCreation (long : Bool) (n : Nat) {c : Cursor} {w g s t u : Bytes} {names : List Bytes}
    (hw : IsNew w) (hg : IsGap g) (hnames : ∀ t ∈ s :: names, IsName t) (ht : IsCreationTail t)
    (hbound : t = [] → Boundary u) (hu : Settled (u.drop (gaps u))) (htag : c.tagEnds = false)
    (hsize : c.rest.length ≤ c.size)
    (hr : c.rest = w ++ (g ++ (pathBytes (s :: names) ++ (t ++ u)))) :
    ∃ children extent, (∀ m ∈ children, m.IsBare) ∧ (extent = .value ∨ extent = .closed) ∧
      (objectCreation (Grammar.upTo long n)).run c = some
        (⟨.mk .objectCreation c.offset (c.offset + (w ++ (g ++ (pathBytes (s :: names) ++ t))).length)
          children, extent, .primary⟩, c.past (w ++ (g ++ (pathBytes (s :: names) ++ t))).length) := by
  obtain ⟨⟨hname, -⟩, hnew⟩ := hw.isWord
  have hpath := pathBytes_cons s names (t ++ u)
  have htoken : BeginsToken (pathBytes (s :: names) ++ (t ++ u)) := by
    rw [hpath]
    exact beginsToken_solid rfl
  have hgap : Boundary (g ++ (pathBytes (s :: names) ++ (t ++ u))) := by
    rw [hpath]
    exact hg.boundary (boundary_cons rfl)
  have hword : wordAt c.rest = "new" := by rw [hr, wordAt_append hname hgap, hnew]
  have hlength : nameLength c.rest = w.length := by rw [hr, nameLength_append hname hgap]
  have hgaps : gaps c.rest = 0 := by rw [hr]; exact (beginsToken_isName hname hgap).gaps
  -- one cursor behind the word, one in front of the class, one behind it
  have hbehind : (c.past w.length).rest = g ++ (pathBytes (s :: names) ++ (t ++ u)) :=
    Cursor.past_rest_append hr
  have hfront : ((c.past w.length).past g.length).rest = pathBytes (s :: names) ++ (t ++ u) :=
    Cursor.past_rest_append hbehind
  have hend : (((c.past w.length).past g.length).past (pathBytes (s :: names)).length).rest = t ++ u :=
    Cursor.past_rest_append hfront
  have hfits : ((c.past w.length).past g.length).rest.length ≤ ((c.past w.length).past g.length).size := by
    rw [hfront]
    rw [hr] at hsize
    simp only [List.length_append] at hsize ⊢
    exact le_trans (by omega) hsize
  obtain ⟨hbound', hbackslash, hcolons⟩ := ht.behindPath hbound hu
  obtain ⟨x, hx, hclass⟩ := run_classReference_path long n hnames hbound' hbackslash hcolons
    (c := (c.past w.length).past g.length) htag hfits hfront
  obtain ⟨args, hargs, htail⟩ := ht.run_maybeArguments long n hu (c := ((c.past w.length).past
    g.length).past (pathBytes (s :: names)).length) htag hend
  have hkey : (keyword "new").run c = some ((), c.past w.length) := by
    rw [run_keyword hgaps hword, List.drop_zero, hlength, Nat.zero_add]
  have hbody : atClassBody ((c.past w.length).past g.length).rest = false := by
    rw [hfront, hpath]
    have hnone : wordAt (92 :: (s ++ (pathBytes names ++ (t ++ u)))) = "" := wordAt_boundary (boundary_cons rfl)
    unfold atClassBody
    rw [hnone]
    rfl
  refine ⟨x :: args, if args.isEmpty then .closed else .value, by simpa using ⟨hx, hargs⟩,
    by split <;> simp, ?_⟩
  unfold objectCreation
  rw [run_bind_some run_gap, hgaps, Cursor.past_zero, run_bind_some run_position, run_bind_some hkey,
    run_bind_some (hg.run_interpolations htoken hbehind true), run_bind_some run_remaining, hbody]
  simp only [Bool.false_eq_true, if_false]
  rw [run_bind_some hclass, run_bind_some htail, run_bind_some (run_nodeFrom _ _ _)]
  have hlength : w.length + (g.length + ((pathBytes (s :: names)).length + t.length)) =
      (w ++ (g ++ (pathBytes (s :: names) ++ t))).length := by simp only [List.length_append]
  simp only [Cursor.past_past, Cursor.past_offset, Nat.add_assoc, hlength]
  cases args.isEmpty <;> rfl

/-- A new object of a class by its path, with nothing or nothing but parentheses behind it. -/
theorem isAtom_creation {w g s t : Bytes} {names : List Bytes} (hw : IsNew w) (hg : IsGap g)
    (hnames : ∀ t ∈ s :: names, IsName t) (ht : IsCreationTail t) :
    IsAtom (w ++ (g ++ (pathBytes (s :: names) ++ t))) := by
  obtain ⟨⟨hname, hfirst, hcast⟩, hnew⟩ := hw.isWord
  have hbound : ∀ u, Boundary (g ++ (pathBytes (s :: names) ++ u)) := fun u => by
    rw [pathBytes_cons]
    exact hg.boundary (boundary_cons rfl)
  have happend : ∀ u, w ++ (g ++ (pathBytes (s :: names) ++ t)) ++ u =
      w ++ (g ++ (pathBytes (s :: names) ++ (t ++ u))) := by simp
  have hclosed : t = [] → isClosed (w ++ (g ++ (pathBytes (s :: names) ++ t))) = false := by
    rintro rfl
    rw [List.append_nil, ← List.append_assoc]
    exact isClosed_path (List.cons_ne_nil s names) hnames _
  obtain ⟨b, rest, rfl⟩ := List.exists_cons_of_ne_nil hname.1
  simp only [List.head?_cons, Option.all_some, Bool.and_eq_true, Bool.not_eq_true'] at hfirst
  refine ⟨fun u => beginsToken_solid hfirst.2, ⟨b, _, rfl, hfirst.1.1⟩, fun u _ => ?_,
    fun long n c u htag hsize hr hu => ?_⟩
  · rw [happend, wordAt_append hname (hbound _)]
    exact hcast
  · rw [happend] at hr
    have hword : wordAt c.rest = "new" := by rw [hr, wordAt_append hname (hbound _), hnew]
    have hn : nameLength c.rest ≠ 0 := by
      rw [hr, nameLength_append hname (hbound _)]
      simp
    obtain ⟨children, extent, hbare, hextent, hrun⟩ := run_objectCreation long n hw hg hnames
      ht (fun h => hu.boundary (hclosed h)) hu.settled htag hsize hr
    have hprimary : (primary (Grammar.upTo long n)).run c = (objectCreation (Grammar.upTo long n)).run c := by
      rw [primary_word hr hfirst.1.2 hn]
      unfold wordOperand
      rw [run_bind_some run_position]
      simp only [hword]
    refine ⟨.objectCreation, children, extent, .primary, rfl, hbare, hextent, ?_⟩
    unfold operandWith
    rw [run_bind_some (hprimary.trans hrun), run_bind_some run_turns]
    refine run_extensionsWithin (c := c.past _) htag ?_ (by rcases hextent with rfl | rfl <;> simp) _
    rw [Cursor.past_rest_append (hr.trans (happend u).symm)]
    exact hu.settled

end FacadeStubs.Php
