import FacadeStubs.Proofs.Reader.Types

/-!
# Reading calls

The body of a forwarding method is one statement: a call of a method on a variable, whose arguments
are variables, and whose value may be returned.

Results:
* `reads_arguments`: variables in parentheses, some of them unpacked.
* `reads_call`: a method called on a variable.
* `reads_callStatement`: the call as a statement, its value returned or not.
-/
namespace FacadeStubs.Php

open Lexical Reader Analysis

variable {source : Bytes} {b long : Bool} {g t u : Bytes} {n : Nat}

/-! ## Behind a variable -/

/-- The bytes go on no expression that ends in a variable or a call. -/
structure Finished (w : Bytes) : Prop extends Settled w where
  steps : (beginsWith "++" w || beginsWith "--" w) = false
  combining : combiningAssignmentAt? w = none
  assignment : atAssignment w = false
  operator : operatorAt? w = none

theorem finished_closer {a : UInt8} (h : isCloser a = true) : Finished (a :: u) := by
  have ha : a = 41 ∨ a = 44 ∨ a = 59 ∨ a = 93 := by simpa [isCloser, or_assoc] using h
  have hword : wordAt (a :: u) = "" :=
    wordAt_boundary (boundary_cons (by rcases ha with rfl | rfl | rfl | rfl <;> rfl))
  have hoperator : operatorAt? (a :: u) = none := by
    unfold operatorAt?
    rw [hword]
    rcases ha with rfl | rfl | rfl | rfl <;> rfl
  have htest : wordAt (a :: u) ≠ "instanceof" := by rw [hword]; decide
  rcases ha with rfl | rfl | rfl | rfl <;>
    exact ⟨⟨rfl, rfl, rfl, rfl, rfl, htest, rfl⟩, rfl, rfl, rfl, hoperator⟩

variable {c : Cursor} {w : Bytes} {node : Node} {grammar : Grammar}

theorem run_extension_finished (hw : Next c.rest w) (h : Finished w) :
    (extension grammar (.place node)).run c = none := by
  unfold extension
  rw [run_bind_some hw.run_behindOperand]
  simp only [h.arrow, h.colons, h.bracket, h.parenthesis]
  exact run_bind_none (run_require_false (by simp [h.steps]))

theorem run_extensionsWithin_finished (hw : Next c.rest w) (h : Finished w) (fuel : Nat) :
    (extensionsWithin grammar fuel (.place node)).run c = some (.place node, c) := by
  cases fuel with
  | zero => rfl
  | succ fuel =>
    unfold extensionsWithin
    rw [if_neg (by simp [Operand.place]),
      run_bind_some (run_maybe_none (run_extension_finished hw h))]
    rfl

theorem run_completed_finished (hw : Next c.rest w) (h : Finished w) :
    (completed grammar (.place node)).run c = some (node, c) := by
  unfold completed
  rw [run_bind_some hw.run_behindOperand]
  simp [Operand.place, h.combining, h.assignment, h.test]

theorem run_operationsWithin_finished (hw : Next c.rest w) (h : Finished w) (least fuel : Nat) :
    (operationsWithin grammar least fuel node).run c = some (node, c) := by
  cases fuel with
  | zero => rfl
  | succ fuel =>
    unfold operationsWithin
    rw [run_bind_some hw.run_behindOperand]
    simp [h.operator, h.condition]

/-- An operand that can be assigned to is an expression where nothing goes on it. -/
theorem run_expressionWith_finished {d : Cursor} {least : Nat}
    (h : (operandWith grammar).run c = some (.place node, d)) (hw : Next d.rest w)
    (hfin : Finished w) : (expressionWith grammar least).run c = some (node, d) := by
  unfold expressionWith
  rw [run_bind_some h, run_bind_some (run_completed_finished hw hfin), run_bind_some run_turns]
  exact run_operationsWithin_finished hw hfin least _

/-! ## Variables -/

variable {s : Bytes}

theorem Node.IsLeaf.isBare {n : Node} {kind : Kind} (h : n.IsLeaf source kind s)
    (hk : isLandmark kind = false) : n.IsBare :=
  isBare_of (by rw [h.kind]; exact hk) (by rw [h.children]; simp)

theorem reads_simpleVariable (hs : IsName s) :
    Reads source b (simpleVariable grammar) (36 :: s) Boundary Node.IsBare := by
  have hname : ∀ u, Boundary u → nameLength (s ++ u) ≠ 0 := fun u hu => by
    rw [nameLength_append hs hu]
    simpa using hs.1
  unfold simpleVariable
  refine Reads.peek (p := fun k => ∃ m, k = m + 1) (fun c u _ _ => ⟨_, run_turns, _, rfl⟩) ?_
  rintro _ ⟨m, rfl⟩
  unfold simpleVariable.go
  refine Reads.bind (t := []) (reads_gap .nil : Reads _ _ _ _ BeginsToken _) (fun _ _ => ?_)
    fun u _ => beginsToken_solid rfl
  refine Reads.position fun start => ?_
  refine Reads.bind (t := [36]) (reads_sign .nil rfl rfl) (fun _ _ => ?_) fun _ _ => trivial
  refine Reads.peek (p := fun w => beginsWith "$" w = false ∧ beginsWith "\x7b" w = false)
    (fun c u hr hu => ?_) fun w hw => ?_
  · have hnext : Next c.rest (s ++ u) := by rw [hr]; exact next_token (beginsToken_isName hs hu)
    exact ⟨_, hnext.run_ahead, beginsWith_name (hname u hu) rfl rfl,
      beginsWith_name (hname u hu) rfl rfl⟩
  rw [if_neg (by simp [hw.1]), if_neg (by simp [hw.2])]
  refine Reads.finish (reads_identifier .nil hs) fun _ _ => ?_
  refine (reads_nodeFrom .dollarName start []).mono (fun _ hu => hu) fun n hn => ?_
  exact isBare_of (by rw [hn.1]; rfl) (by rw [hn.2]; simp)

/-- A variable as the first part of an operand. -/
theorem reads_primary_variable (grammar : Grammar) (hg : IsGap g) (hs : IsName s) :
    Reads source b (primary grammar) (g ++ 36 :: s) Boundary
      fun o => ∃ n, o = .place n ∧ n.IsBare := by
  unfold primary
  refine (reads_openGap hg).bind (fun _ _ => ?_) fun u _ => beginsToken_solid rfl
  refine Reads.peek (p := fun w => ∃ v, w = 36 :: v)
    (fun c u hr _ => ⟨_, run_remaining, s ++ u, by rw [hr]; rfl⟩) ?_
  rintro _ ⟨v, rfl⟩
  have hname : nameLength (36 :: v) = 0 := nameLength_boundary (boundary_cons rfl)
  have hdollar : beginsWith "$" (36 :: v) = true := rfl
  rw [if_neg (by rw [atNumber_eq_false rfl]; decide), if_neg (by rw [atString_eq_false rfl]; decide),
    if_neg (by simp [hname]), if_pos hdollar]
  exact (reads_simpleVariable hs).yields fun n hn => ⟨n, rfl, hn⟩

/-- Nothing goes on the expression. -/
def EndsExpression (u : Bytes) : Prop := Boundary u ∧ ∃ w, Next u w ∧ Finished w

theorem EndsEntry.endsExpression (h : EndsEntry u) : EndsExpression u := by
  obtain ⟨v, rfl | rfl⟩ := h
  · exact ⟨boundary_cons rfl, _, next_token (beginsToken_solid rfl), finished_closer rfl⟩
  · exact ⟨boundary_cons rfl, _, next_token (beginsToken_solid rfl), finished_closer rfl⟩

/-- A variable as an expression. -/
theorem reads_variable (hg : IsGap g) (hs : IsName s) (least : Nat) :
    Reads source b (expressionWith grammar least) (g ++ 36 :: s) EndsExpression Node.IsBare := by
  intro c u hc hr hu
  obtain ⟨hbound, w, hnext, hfin⟩ := hu
  obtain ⟨_, hrun, n, rfl, hn⟩ := reads_primary_variable grammar hg hs hc hr hbound
  have hend : Next (c.past (g ++ 36 :: s).length).rest w := by
    rw [Cursor.past_rest_append hr]
    exact hnext
  have hoperand : (operandWith grammar).run c = some (.place n, c.past (g ++ 36 :: s).length) := by
    unfold operandWith
    rw [run_bind_some hrun, run_bind_some run_turns]
    exact run_extensionsWithin_finished hend hfin _
  exact ⟨n, run_expressionWith_finished hoperand hend hfin, hn⟩

/-- The brackets that close something, the comma and the sign of a reference begin no operand. -/
theorem run_primary_none {a : UInt8} {v : Bytes} (ha : a = 38 ∨ a = 41 ∨ a = 44 ∨ a = 125)
    (hu : Next c.rest (a :: v)) : (primary grammar).run c = none := by
  obtain ⟨k, hk, hkv⟩ := hu.behind
  have hopen : gapsBeforeAttributes c.rest = k.length := by
    rw [hkv, hk.gapsBeforeAttributes hu.token]
  have hrest : (c.past k.length).rest = a :: v := by
    rw [Cursor.past_rest, hkv, List.drop_left]
  have hname : nameLength (a :: v) = 0 :=
    nameLength_boundary (boundary_cons (by rcases ha with rfl | rfl | rfl | rfl <;> rfl))
  have hscalar : beginsNoScalar a = true := by rcases ha with rfl | rfl | rfl | rfl <;> rfl
  unfold primary
  rw [run_bind_some run_openGap, hopen, run_bind_some run_remaining, hrest,
    if_neg (by rw [atNumber_eq_false hscalar]; decide),
    if_neg (by rw [atString_eq_false hscalar]; decide), if_neg (by simp [hname])]
  rcases ha with rfl | rfl | rfl | rfl <;> rfl

/-- Nor do they begin an expression. -/
theorem stops_expression {a : UInt8} {v : Bytes} (ha : a = 38 ∨ a = 41 ∨ a = 44 ∨ a = 125)
    (hu : Next u (a :: v)) (least : Nat) : Stops source b (expressionWith grammar least) u := by
  intro c _ hr
  exact run_bind_none (run_bind_none (run_primary_none ha (hr ▸ hu)))

/-! ## Arguments -/

theorem isRelativeScope_boundary (h : Boundary u) : isRelativeScope u = false := by
  simp [isRelativeScope, wordAt_boundary h, exactWordAt, nameLength_boundary h]

/-- A variable as an argument, unpacked or not. -/
def argumentBytes (spread : Bool) (s : Bytes) : Bytes :=
  if spread then 46 :: 46 :: 46 :: 36 :: s else 36 :: s

theorem argumentBytes_cons (spread : Bool) (s : Bytes) :
    ∃ a v, argumentBytes spread s = a :: v ∧ (a = 36 ∨ a = 46) := by
  cases spread
  · exact ⟨36, s, rfl, .inl rfl⟩
  · exact ⟨46, _, rfl, .inr rfl⟩

theorem reads_dots : Reads source b (symbol "...") ([] ++ [46, 46, 46]) anyRest fun _ => True :=
  reads_symbol .nil rfl (fun _ => rfl) fun _ _ => beginsToken_solid rfl

theorem reads_argument (hg : IsGap g) (hs : IsName s) (spread : Bool) :
    Reads source b (argument (Grammar.upTo long (n + 1))) (g ++ argumentBytes spread s) EndsEntry
      Node.IsBare := by
  have htoken : ∀ u, BeginsToken (argumentBytes spread s ++ u) := fun u => by
    obtain ⟨a, v, hav, rfl | rfl⟩ := argumentBytes_cons spread s <;> rw [hav] <;>
      exact beginsToken_solid rfl
  have hbound : ∀ u, Boundary (argumentBytes spread s ++ u) := fun u => by
    obtain ⟨a, v, hav, rfl | rfl⟩ := argumentBytes_cons spread s <;> rw [hav] <;>
      exact boundary_cons rfl
  have hnext : ∀ u, Next (g ++ argumentBytes spread s ++ u) (argumentBytes spread s ++ u) :=
    fun u => by
      rw [List.append_assoc]
      exact next_append hg (htoken u)
  unfold argument
  refine Reads.peek (p := (atArgumentName · = false)) (fun c u hr _ => ?_) fun w hw => ?_
  · refine ⟨_, Next.run_openAhead (by rw [hr]; exact hnext u), ?_⟩
    simp [atArgumentName, nameLength_boundary (hbound u)]
  simp only [hw, Bool.false_eq_true, if_false]
  refine Reads.look (a := none) (fun c u hr _ => ?_) ?_
  · refine run_maybe_none (run_symbol_none ?_)
    rw [hr, (hnext u).drop_gaps]
    obtain ⟨a, v, hav, rfl | rfl⟩ := argumentBytes_cons spread s <;> rw [hav] <;> rfl
  refine Reads.peek (p := fun w => atScopeArgument w = false ∧ beginsWith "..." w = spread)
    (fun c u hr _ => ?_) fun w hw => ?_
  · refine ⟨_, Next.run_openAhead (by rw [hr]; exact hnext u), ?_, ?_⟩
    · simp [atScopeArgument, isRelativeScope_boundary (hbound u)]
    · cases spread <;> rfl
  rw [if_neg (by simp [hw.1]), hw.2]
  cases spread with
  | false => exact (reads_variable hg hs _).mono (fun u hu => hu.endsExpression) fun _ hn => hn
  | true =>
    have hvalue : Reads source b ((Grammar.upTo long (n + 1)).expression Strength.any) (36 :: s)
        EndsEntry Node.IsBare :=
      (reads_variable .nil hs _).mono (fun u hu => hu.endsExpression) fun _ hn => hn
    have hparts := reads_dots.bind (fun _ _ => hvalue.yields (f := fun e => [e])
      (q := fun ns => ∃ e, ns = [e] ∧ e.IsBare) fun e he => ⟨e, rfl, he⟩) fun _ _ => trivial
    refine (@reads_nodeOf _ _ _ _ _ .unpacking _ _ hg hparts fun u _ => beginsToken_solid rfl).mono
      (fun _ hu => hu) ?_
    rintro m ⟨hk, -, e, he, hbare⟩
    exact isBare_of (by rw [hk]; rfl) (by rw [he]; simpa using hbare)

/-- A closing parenthesis begins no argument. -/
theorem run_argument_none (hnext : Next c.rest (41 :: u)) :
    (argument (Grammar.upTo long n)).run c = none := by
  have hbound : Boundary (41 :: u) := boundary_cons rfl
  have hnamed : atArgumentName (41 :: u) = false := by
    simp [atArgumentName, nameLength_boundary hbound]
  have hand : (symbol "&").run c = none := run_symbol_none (by rw [hnext.drop_gaps]; rfl)
  have hscope : atScopeArgument (41 :: u) = false := by
    simp [atScopeArgument, isRelativeScope_boundary hbound]
  unfold argument
  rw [run_bind_some hnext.run_openAhead]
  simp only [hnamed, Bool.false_eq_true, if_false]
  rw [run_bind_some (run_maybe_none hand), run_bind_some hnext.run_openAhead,
    if_neg (by simp [hscope])]
  cases n with
  | zero => rfl
  | succ n => exact run_bind_none (run_bind_none (run_primary_none (.inr (.inl rfl)) hnext))

theorem stops_argument (u : Bytes) :
    Stops source b (argument (Grammar.upTo long (n + 1))) (41 :: u) := fun _ _ hr =>
  run_argument_none (by rw [hr]; exact next_token (beginsToken_solid rfl))

/-- Variables as arguments, each unpacked or not. -/
def argumentRow (args : List (Bool × Bytes)) : Row Node :=
  args.map fun a => (argumentBytes a.1 a.2, Node.IsBare)

theorem stops_partialCall {args : List (Bool × Bytes)} (u : Bytes) :
    Stops source b partialCall (listBytes (argumentRow args) ++ 41 :: u) := by
  intro c hc hr
  have hnone : ∀ a v, c.rest = a :: v → a = 41 ∨ a = 36 → partialCall.run c = none := by
    intro a v hav ha
    have hgap : gaps c.rest = 0 := by
      rw [hav]
      exact (beginsToken_solid (by rcases ha with rfl | rfl <;> rfl)).gaps
    have hsign : (symbol "...").run c = none := by
      refine run_symbol_none ?_
      rw [hgap, hav]
      rcases ha with rfl | rfl <;> rfl
    exact run_bind_none (run_nodeOf_none hgap (run_bind_none hsign))
  cases args with
  | nil => exact hnone 41 u hr (.inl rfl)
  | cons a args =>
    obtain ⟨spread, s⟩ := a
    cases spread with
    | false => exact hnone 36 _ hr (.inr rfl)
    | true =>
      obtain ⟨v, hv⟩ : ∃ v, c.rest = [46, 46, 46] ++ 36 :: v := ⟨_, hr⟩
      obtain ⟨dots, hdots, -⟩ := reads_leaf .nil reads_dots (fun _ _ => beginsToken_solid rfl) hc hv
        trivial
      have hleaf : (leaf .unpacking (symbol "...")).run c = some (dots, c.past 3) := hdots
      have hnext : Next (c.past 3).rest (36 :: v) := by
        rw [Cursor.past_rest, hv]
        exact next_token (beginsToken_solid rfl)
      unfold partialCall
      rw [run_bind_some hleaf, run_bind_some (hnext.run_nextIs _)]
      exact run_bind_none (run_require_false rfl)

/-- Arguments in parentheses. -/
theorem reads_arguments {args : List (Bool × Bytes)} (h : ∀ a ∈ args, IsName a.2) :
    Reads source b (arguments (Grammar.upTo long (n + 1)))
      (40 :: (listBytes (argumentRow args) ++ [41])) anyRest Node.IsBare := by
  have hlist : Reads source false (openList (argument (Grammar.upTo long (n + 1))))
      (listBytes (argumentRow args)) (fun u => ∃ w, u = 41 :: w) (Gives (argumentRow args)) :=
    reads_openList (List.forall_mem_map.2 fun a ha g hg => reads_argument hg (h a ha) a.1)
      stops_argument
  have hinner : Reads source false (partialCall <|> openList (argument (Grammar.upTo long (n + 1))))
      (listBytes (argumentRow args)) (fun u => ∃ w, u = [] ++ 41 :: w)
      fun ns => ∀ m ∈ ns, m.IsBare := by
    refine Reads.elseOr ?_ (hlist.mono (fun _ hu => hu) fun ns hns =>
      hns.all (List.forall_mem_map.2 fun a _ m hm => hm))
    rintro u ⟨w, rfl⟩
    exact stops_partialCall w
  refine (reads_nodeOf .nil (reads_between .nil rfl rfl .nil rfl rfl hinner)
    fun u _ => beginsToken_solid rfl).mono (fun _ hu => hu) ?_
  rintro m ⟨hk, -, hm⟩
  exact isBare_of (by rw [hk]; rfl) hm

/-! ## Calls -/

/-- A method and its arguments, behind an object. -/
def memberBytes (m : Bytes) (args : List (Bool × Bytes)) : Bytes :=
  45 :: 62 :: (m ++ 40 :: (listBytes (argumentRow args) ++ [41]))

theorem reads_member {m : Bytes} {args : List (Bool × Bytes)} (hm : IsName m)
    (h : ∀ a ∈ args, IsName a.2) (hnode : node.IsBare) :
    Reads source b (extension (Grammar.upTo long (n + 1)) (.place node)) (memberBytes m args) anyRest
      fun o => ∃ k, o = .place k ∧ k.IsBare := by
  have hname : ∀ u, nameLength (m ++ 40 :: u) ≠ 0 := fun u => by
    rw [nameLength_append hm (boundary_cons rfl)]
    simpa using hm.1
  have hmember : Reads source b (memberName (Grammar.upTo long (n + 1))) m
      (fun u => ∃ v, u = 40 :: v) Node.IsBare := by
    have hnext : ∀ {c : Cursor} {u : Bytes}, c.rest = m ++ u → (∃ v, u = 40 :: v) →
        Next c.rest c.rest ∧ nameLength c.rest ≠ 0 := by
      rintro c _ hr ⟨v, rfl⟩
      rw [hr]
      exact ⟨next_token (beginsToken_name (hname v)), hname v⟩
    unfold memberName
    refine Reads.look (a := false) (fun c u hr hu => ?_) (Reads.look (a := false)
      (fun c u hr hu => ?_) ?_)
    · rw [(hnext hr hu).1.run_nextIs, beginsWith_name (hnext hr hu).2 rfl rfl]
    · rw [(hnext hr hu).1.run_nextIs, beginsWith_name (hnext hr hu).2 rfl rfl]
    · refine (reads_identifier .nil hm).mono ?_ fun k hk => hk.isBare rfl
      rintro u ⟨v, rfl⟩
      exact boundary_cons rfl
  unfold extension
  refine Reads.peek (p := (arrowAt? · = some "->")) (fun c u hr _ => ?_) fun w hw => ?_
  · have hnext : Next c.rest (45 :: 62 :: (m ++ 40 :: (listBytes (argumentRow args) ++ [41])) ++ u) := by
      rw [hr]
      exact next_token (beginsToken_solid rfl)
    exact ⟨_, hnext.run_behindOperand, rfl⟩
  simp only [hw]
  have harrow : Reads source b (symbol "->") ([] ++ [45, 62]) anyRest fun _ => True :=
    reads_symbol .nil rfl (fun _ => rfl) fun _ _ => beginsToken_solid rfl
  refine harrow.bind (fun _ _ => ?_) fun _ _ => trivial
  refine hmember.bind (fun name hbare => ?_) fun u _ => ⟨_, rfl⟩
  have hargs : Reads source b (maybeArguments (Grammar.upTo long (n + 1)))
      (40 :: (listBytes (argumentRow args) ++ [41])) anyRest
      fun ns => ∃ k, ns = [k] ∧ k.IsBare := by
    unfold maybeArguments
    refine Reads.look (a := true) (fun c u hr _ => ?_) ?_
    · have hnext : Next c.rest (40 :: (listBytes (argumentRow args) ++ [41]) ++ u) := by
        rw [hr]
        exact next_token (beginsToken_solid rfl)
      rw [hnext.run_thenIs]
      rfl
    · exact (reads_arguments h).yields fun k hk => ⟨k, rfl, hk⟩
  refine hargs.finish ?_
  rintro _ ⟨k, rfl, hk⟩
  refine (reads_nodeFrom .place _ _).yields fun x hx => ⟨x, rfl, isBare_of (by rw [hx.1]; rfl) ?_⟩
  rw [hx.2]
  simpa using ⟨hnode, hbare, hk⟩

/-- A method called on a variable. -/
theorem reads_call {v m : Bytes} {args : List (Bool × Bytes)} (hg : IsGap g) (hv : IsName v)
    (hm : IsName m) (h : ∀ a ∈ args, IsName a.2) (least : Nat) :
    Reads source b (expressionWith (Grammar.upTo long (n + 1)) least)
      (g ++ 36 :: v ++ memberBytes m args) EndsExpression Node.IsBare := by
  intro c u hc hr hu
  obtain ⟨-, w, hnext, hfin⟩ := hu
  have hr' : c.rest = g ++ 36 :: v ++ (memberBytes m args ++ u) := by rw [hr, List.append_assoc]
  obtain ⟨_, hfirst, x, rfl, hx⟩ := reads_primary_variable (Grammar.upTo long (n + 1)) hg
    hv hc hr' (boundary_cons rfl)
  have hc' := hc.past (g ++ 36 :: v).length
  have hrest : (c.past (g ++ 36 :: v).length).rest = memberBytes m args ++ u :=
    Cursor.past_rest_append hr'
  obtain ⟨_, hmember, y, rfl, hy⟩ := reads_member (n := n) hm h hx hc' hrest trivial
  have hlength : (g ++ 36 :: v).length + (memberBytes m args).length =
      (g ++ 36 :: v ++ memberBytes m args).length := List.length_append.symm
  rw [Cursor.past_past, hlength] at hmember
  have hend : Next (c.past (g ++ 36 :: v ++ memberBytes m args).length).rest w := by
    rw [Cursor.past_rest_append hr]
    exact hnext
  refine ⟨y, run_expressionWith_finished ?_ hend hfin, hy⟩
  unfold operandWith
  rw [run_bind_some hfirst, run_bind_some run_turns, extensionsWithin,
    if_neg (by simp [Operand.place]), run_bind_some (run_maybe_some hmember)]
  exact run_extensionsWithin_finished hend hfin _

/-! ## Statements -/

theorem reads_semicolon (hg : IsGap g) :
    Reads source b semicolon (g ++ [59]) anyRest fun _ => True := by
  intro c u _ hr _
  have hr' : c.rest = g ++ 59 :: u := by rw [hr, List.append_assoc]; rfl
  have hgap : gapsBeforeEnd 0 true c.rest = (g.length, false) := by
    rw [hr', hg.gapsBeforeEnd (beginsToken_solid rfl)]
  have hsign : beginsWith ";" (c.rest.drop g.length) = true := by rw [hr', List.drop_left]; rfl
  refine ⟨(), ?_, trivial⟩
  unfold semicolon
  rw [run_bind_some run_remaining, hgap]
  simp only [Bool.false_eq_true, if_false]
  rw [run_bind_some (run_require_true hsign), run_advance, List.length_append]
  rfl

theorem stops_semicolon (hu : Next u w) (hw : beginsWith ";" w = false) :
    Stops source b semicolon u := by
  intro c _ hr
  obtain ⟨k, hk, hkw⟩ := hu.behind
  have hgap : gapsBeforeEnd 0 true c.rest = (k.length, false) := by
    rw [hr, hkw, hk.gapsBeforeEnd hu.token]
  have hsign : beginsWith ";" (c.rest.drop k.length) = false := by
    rw [hr, hkw, List.drop_left, hw]
  unfold semicolon
  rw [run_bind_some run_remaining, hgap]
  simp only [Bool.false_eq_true, if_false]
  exact run_bind_none (run_require_false hsign)

theorem endsExpression_semicolon : EndsExpression (59 :: u) :=
  ⟨boundary_cons rfl, _, next_token (beginsToken_solid rfl), finished_closer rfl⟩

/-- An expression and a semicolon. -/
theorem reads_expressionStatement
    (h : ∀ source g, IsGap g → Reads source true ((Grammar.upTo long n).expression Strength.any)
      (g ++ t) EndsExpression Node.IsBare)
    (ht : ∀ u, BeginsToken (t ++ u)) (hg : IsGap g) :
    Reads source b (expressionStatement (Grammar.upTo long n)) (g ++ (t ++ [59])) anyRest
      Node.IsBare := by
  unfold expressionStatement
  refine (reads_openGap hg).bind (fun _ _ => Reads.position fun start => ?_) fun u _ => by
    rw [List.append_assoc]
    exact ht _
  refine (h source [] .nil).last.bind (fun e he => ?_) fun u _ => endsExpression_semicolon
  refine (reads_semicolon .nil).finish fun _ _ => ?_
  refine (reads_nodeFrom .statement start [e]).mono (fun _ hu => hu) fun x hx => ?_
  exact isBare_of (by rw [hx.1]; rfl) (by rw [hx.2]; simpa using he)

/-- The word `return`, an expression and a semicolon. -/
theorem reads_returnStatement
    (h : ∀ source g, IsGap g → Reads source true ((Grammar.upTo long n).expression Strength.any)
      (g ++ t) EndsExpression Node.IsBare)
    (ht : ∀ u, BeginsToken (t ++ u)) (hsemicolon : ∀ u, beginsWith ";" (t ++ u) = false) :
    Reads source b (nodeOf .returnStatement (wordStatement (Grammar.upTo long n) "return"))
      (Utf8.bytesOf "return" ++ 32 :: (t ++ [59])) anyRest Node.IsBare := by
  have hblank : IsGap [32] := .space rfl .nil
  have hword : IsName (Utf8.bytesOf "return") := by decide +kernel
  have hnext : ∀ u, Next (32 :: (t ++ [59]) ++ u) (t ++ 59 :: u) := fun u => by
    simpa using next_append hblank (ht (59 :: u))
  have hparts : Reads source b (wordStatement (Grammar.upTo long n) "return")
      (Utf8.bytesOf "return" ++ 32 :: (t ++ [59])) anyRest fun ns => ∀ e ∈ ns, e.IsBare := by
    unfold wordStatement
    have hreturn : Reads source b (keyword "return") (Utf8.bytesOf "return") Boundary
        fun _ => True := reads_keyword (g := []) .nil hword (by decide)
    refine hreturn.bind (fun _ _ => ?_) fun u _ => boundary_cons rfl
    refine Reads.bind (t := [])
      (reads_maybe_none ?_ : Reads _ _ _ _ (fun u => ∃ v, u = 32 :: (t ++ [59]) ++ v) _) ?_
      fun u _ => ⟨u, rfl⟩
    · rintro u ⟨v, rfl⟩
      exact stops_semicolon (hnext v) (hsemicolon _)
    rintro _ rfl
    refine Reads.bind (t := [32] ++ t) (h source [32] hblank).last (fun e he => ?_)
      fun u _ => endsExpression_semicolon
    exact (reads_semicolon .nil).yields fun _ _ => by simpa using he
  refine (reads_nodeOf .nil hparts fun u _ => ?_).mono (fun _ hu => hu) ?_
  · rw [List.append_assoc]
    exact beginsToken_isName hword (boundary_cons rfl)
  · rintro x ⟨hk, -, hx⟩
    exact isBare_of (by rw [hk]; rfl) hx

/-- A word that begins a statement: no number, and not the word that only one spelling makes one. -/
def BeginsStatement (s : Bytes) : Prop :=
  IsName s ∧ s.head?.all beginsNoScalar = true ∧ exactWordAt s ≠ "unset"

instance (s : Bytes) : Decidable (BeginsStatement s) := inferInstanceAs (Decidable (_ ∧ _ ∧ _))

/-- A statement that begins with a word and a blank is read by the rule for the word. -/
theorem run_statementWith_word {s v : Bytes} (hg : IsGap g) (hs : BeginsStatement s)
    (hr : c.rest = g ++ (s ++ 32 :: v)) :
    (statementWith grammar).run c =
      (inner (openGap >>= fun _ =>
        statementAt grammar (c.offset + g.length) (s ++ 32 :: v))).run c := by
  obtain ⟨hname, hfirst, hunset⟩ := hs
  have hbound : Boundary (32 :: v) := boundary_cons rfl
  have hlength : nameLength (s ++ 32 :: v) ≠ 0 := by
    rw [nameLength_append hname hbound]
    simpa using hname.1
  have hnumber : atNumber (s ++ 32 :: v) = false := by
    obtain ⟨a, rest, rfl⟩ := List.exists_cons_of_ne_nil hname.1
    exact atNumber_eq_false (by simpa using hfirst)
  have hword : exactWordAt (s ++ 32 :: v) ≠ "unset" := by rwa [exactWordAt_front hbound]
  have hgap : gapsBeforeAttributes c.rest = g.length := by
    rw [hr, hg.gapsBeforeAttributes (beginsToken_isName hname hbound)]
  have hrest : c.rest.drop g.length = s ++ 32 :: v := by rw [hr, List.drop_left]
  refine run_withTagEnds_congr ?_
  rw [run_bind_some run_openGap, run_bind_some run_openGap, run_bind_some run_remaining,
    run_bind_some run_position, hgap]
  simp only [Cursor.past_rest, Cursor.past_offset, hrest]
  rw [if_neg (by rw [beginsWith_name hlength rfl rfl]; decide),
    if_neg (by rw [beginsWith_name hlength rfl rfl]; decide),
    if_neg (by rw [beginsWith_name hlength rfl rfl]; decide), if_neg (by simpa using hword),
    if_pos (by simp [hlength, hnumber])]

theorem reads_statement {s : Bytes} {ok : Bytes → Prop} {post : Node → Prop} (hg : IsGap g)
    (hs : BeginsStatement s) (h : ∀ start v, Reads source false
      (statementAt grammar start (s ++ 32 :: v)) (s ++ 32 :: t) ok post) :
    Reads source b (statementWith grammar) (g ++ (s ++ 32 :: t)) ok post := by
  intro c u hc hr hu
  have hr' : c.rest = g ++ (s ++ 32 :: (t ++ u)) := by simp [hr]
  rw [run_statementWith_word hg hs hr']
  refine Reads.inner ?_ hc hr hu
  refine (reads_openGap hg).bind (fun _ _ => h _ _) fun v _ => ?_
  rw [List.append_assoc]
  exact beginsToken_isName hs.1 (boundary_cons rfl)

theorem stops_statementWith {s : Bytes} (hg : IsGap g) (hs : BeginsStatement s)
    (h : ∀ start, Stops source false (statementAt grammar start (s ++ 32 :: t)) (s ++ 32 :: t)) :
    Stops source b (statementWith grammar) (g ++ (s ++ 32 :: t)) := by
  intro c hc hr
  rw [run_statementWith_word hg hs hr]
  refine Stops.withTagEnds (stops_openGap (next_append hg ?_) (h _)) hc hr
  exact beginsToken_isName hs.1 (boundary_cons rfl)

theorem decides_statement {s : Bytes} {ok : Bytes → Prop} {post : Node → Prop} {good : Prop}
    (hg : IsGap g) (hs : BeginsStatement s) (h : ∀ start v, Decides source false
      (statementAt grammar start (s ++ 32 :: v)) (s ++ 32 :: t) ok post good) :
    Decides source b (statementWith grammar) (g ++ (s ++ 32 :: t)) ok post good := by
  refine ⟨fun hgood => reads_statement hg hs fun start v => (h start v).reads hgood, ?_⟩
  intro hbad u hu
  have hbytes : ∀ front, front ++ (s ++ 32 :: t) ++ u = front ++ (s ++ 32 :: (t ++ u)) := by simp
  rw [hbytes]
  refine stops_statementWith hg hs fun start => ?_
  simpa using (h start (t ++ u)).breaks hbad u hu

/-- A call of a method on a variable, as a statement. -/
def callBytes (returns : Bool) (v m : Bytes) (args : List (Bool × Bytes)) : Bytes :=
  (if returns then Utf8.bytesOf "return" ++ [32] else []) ++ (36 :: v ++ memberBytes m args ++ [59])

theorem reads_callStatement {v m : Bytes} {args : List (Bool × Bytes)} {returns : Bool}
    (hg : IsGap g) (hv : IsName v) (hm : IsName m) (h : ∀ a ∈ args, IsName a.2) :
    Reads source b (statementWith (Grammar.upTo long (n + 2))) (g ++ callBytes returns v m args)
      anyRest Node.IsBare := by
  have hcall : ∀ source g, IsGap g → Reads source true
      ((Grammar.upTo long (n + 2)).expression Strength.any) (g ++ (36 :: v ++ memberBytes m args))
      EndsExpression Node.IsBare := fun source g hg => by
    rw [← List.append_assoc]
    exact reads_call hg hv hm h _
  have hbegins : ∀ u, BeginsToken (36 :: v ++ memberBytes m args ++ u) := fun u =>
    beginsToken_solid rfl
  cases returns with
  | false =>
    unfold statementWith
    refine Reads.inner ((reads_openGap hg).bind (fun _ _ => ?_) fun u _ => beginsToken_solid rfl)
    refine Reads.peek (p := fun w => ∃ r, w = 36 :: r) (fun c u hr _ => ⟨_, run_remaining, _, hr⟩) ?_
    rintro _ ⟨r, rfl⟩
    refine Reads.position fun start => ?_
    have hname : nameLength (36 :: r) = 0 := nameLength_boundary (boundary_cons rfl)
    have hsigns : beginsWith "\x7b" (36 :: r) = false ∧ beginsWith ";" (36 :: r) = false ∧
        beginsWith "#[" (36 :: r) = false := ⟨rfl, rfl, rfl⟩
    rw [if_neg (by simp [hsigns.1]), if_neg (by simp [hsigns.2.1]), if_neg (by simp [hsigns.2.2]),
      if_neg (by simp [exactWordAt, hname]), if_neg (by simp [hname])]
    refine Reads.look (a := ()) (fun c u _ _ => run_require_true rfl) ?_
    exact reads_expressionStatement (g := []) hcall hbegins .nil
  | true =>
    have hword : BeginsStatement (Utf8.bytesOf "return") := by decide +kernel
    have hfolded : String.ofList (folded (Utf8.bytesOf "return")) = "return" := by decide +kernel
    have hsame : callBytes true v m args =
        Utf8.bytesOf "return" ++ 32 :: (36 :: v ++ memberBytes m args ++ [59]) := by
      simp [callBytes]
    rw [hsame]
    refine reads_statement hg hword fun start v => ?_
    have hwordAt : wordAt (Utf8.bytesOf "return" ++ 32 :: v) = "return" := by
      rw [wordAt_append hword.1 (boundary_cons rfl), hfolded]
    unfold statementAt
    simp only [hwordAt]
    exact reads_returnStatement hcall hbegins fun u => rfl

/-- A closing brace begins no statement. -/
theorem stops_statement {v : Bytes} (hu : Next u (125 :: v)) :
    Stops source b (statementWith (Grammar.upTo long (n + 1))) u := by
  have hexpression : Stops source false (expressionStatement (Grammar.upTo long (n + 1)))
      (125 :: v) := by
    intro c hc hr
    have hnext : Next (125 :: v) (125 :: v) := next_token (beginsToken_solid rfl)
    unfold expressionStatement
    rw [run_bind_some run_openGap, hr, hnext.token.gapsBeforeAttributes, Cursor.past_zero,
      run_bind_some run_position]
    refine run_bind_none (Stops.withTagEnds ?_ hc hr)
    exact stops_expression (.inr (.inr (.inr rfl))) hnext Strength.any
  refine Stops.withTagEnds fun c hc hr => ?_
  obtain ⟨k, hk, hkv⟩ := hu.behind
  have hopen : gapsBeforeAttributes c.rest = k.length := by
    rw [hr, hkv, hk.gapsBeforeAttributes hu.token]
  have hrest : (c.past k.length).rest = 125 :: v := by
    rw [Cursor.past_rest, hr, hkv, List.drop_left]
  have hname : nameLength (125 :: v) = 0 := nameLength_boundary (boundary_cons rfl)
  have hsigns : beginsWith "\x7b" (125 :: v) = false ∧ beginsWith ";" (125 :: v) = false ∧
      beginsWith "#[" (125 :: v) = false := ⟨rfl, rfl, rfl⟩
  rw [run_bind_some run_openGap, hopen, run_bind_some run_remaining, run_bind_some run_position,
    hrest, if_neg (by simp [hsigns.1]), if_neg (by simp [hsigns.2.1]),
    if_neg (by simp [hsigns.2.2]), if_neg (by simp [exactWordAt, hname]), if_neg (by simp [hname])]
  have hnonempty : (require !(125 :: v).isEmpty).run (c.past k.length) =
      some ((), c.past k.length) := run_require_true rfl
  rw [run_bind_some hnonempty]
  exact hexpression (hc.past _) hrest

/-- Statements in braces. -/
theorem reads_block (items : Row Node) {k : Bytes} (hg : IsGap g) (hk : IsGap k)
    (h : ∀ i ∈ items, i.1 ≠ [] ∧
      Reads source false (statementWith (Grammar.upTo long (n + 1))) i.1 anyRest i.2) :
    Reads source b (block (Grammar.upTo long (n + 2))) (g ++ 123 :: (rowBytes items ++ (k ++ [125])))
      anyRest fun x => x.kind = .block ∧ Gives items x.children := by
  have hrow : Reads source false (many (Grammar.upTo long (n + 2)).statement) (rowBytes items)
      (fun u => ∃ w, u = k ++ 125 :: w) (Gives items) := by
    refine (reads_many (fun i hi => (h i hi).1) (fun i hi => (h i hi).2)
      fun _ _ _ => trivial).mono ?_ fun _ hns => hns
    rintro u ⟨w, rfl⟩
    exact ⟨trivial, stops_statement (next_append hk (beginsToken_solid rfl))⟩
  refine (reads_nodeOf hg (reads_between .nil rfl rfl hk rfl rfl hrow)
    fun u _ => beginsToken_solid rfl).mono (fun _ hu => hu) ?_
  exact fun x hx => ⟨hx.1, hx.2.2⟩

end FacadeStubs.Php
