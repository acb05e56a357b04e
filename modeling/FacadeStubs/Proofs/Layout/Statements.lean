import FacadeStubs.Proofs.Layout.Expressions

/-!
# Nodes of a source file in order

Statements, and from them the file as a whole: the grammar of every depth gives nodes in order, so that
the tree of a source is orderly (`isOrderly_of_parse?`).
-/
namespace FacadeStubs.Php

open Lexical Reader

section
variable {g : Grammar} (hg : g.LaysOut)
include hg

/-! ## Bodies -/

theorem lays_statementsUntil (closers : List String) (s : Nat) :
    Lays s [] (statementsUntil g closers) := by
  refine lays_many (fun s => ?_) s
  exact Lays.pass onward_nextWord fun _ => Lays.pass (onward_require _) fun _ => hg.statement s

theorem lays_loopBody (closers : List String) (ending : String) (s : Nat) :
    Lays s [] (loopBody g closers ending) := by
  refine Lays.pass onward_semicolon.maybe fun empty => ?_
  split
  · exact lays_none s
  · refine Lays.pass (onward_nextIs _) fun colon => Lays.ite ?_ ?_
    · refine Lays.pass (onward_symbol _) fun _ => Lays.keep (lays_statementsUntil hg _) fun statements => ?_
      refine Lays.pass (onward_keyword _) fun _ => Lays.pass onward_semicolon fun _ => ?_
      exact lays_pure (by simp)
    · exact Lays.keep hg.statement fun _ => lays_pure (by simp)

/-! ## Conditions -/

theorem lays_plainAlternatives : ∀ fuel s, Lays s [] (plainAlternatives g fuel)
  | 0, s => lays_none s
  | fuel + 1, s => by
    rw [plainAlternatives]
    refine Lays.pass onward_nextWord fun word => ?_
    split
    · have hbranch : Lays s [] (do
          keyword "elseif"
          let condition ← parenthesized g
          return [condition, ← g.statement]) := by
        refine Lays.pass (onward_keyword _) fun _ => Lays.keep (lays_parenthesized hg) fun condition => ?_
        exact Lays.keep hg.statement fun _ => lays_pure (by simp)
      refine hbranch.maybe (fun nodes => ?_) (lays_none s)
      exact Lays.keep (lays_plainAlternatives fuel) fun more => lays_pure (by simp)
    · refine lays_maybeNode (fun s => ?_) s
      rw [seqRight_eq_bind]
      exact Lays.pass (onward_keyword _) fun _ => hg.statement s
    · exact lays_none s

theorem lays_colonAlternatives : ∀ fuel s, Lays s [] (colonAlternatives g fuel)
  | 0, s => lays_none s
  | fuel + 1, s => by
    rw [colonAlternatives]
    refine Lays.pass onward_nextWord fun word => ?_
    split
    · refine Lays.pass (onward_keyword _) fun _ => Lays.keep (lays_parenthesized hg) fun condition => ?_
      refine Lays.pass (onward_symbol _) fun _ => Lays.keep (lays_statementsUntil hg _) fun _ => ?_
      exact Lays.keep (lays_colonAlternatives fuel) fun more => lays_pure (by simp)
    · refine Lays.pass (onward_keyword _) fun _ => Lays.pass (onward_symbol _) fun _ => ?_
      exact lays_statementsUntil hg _ s
    · exact lays_none s

theorem lays_ifStatement (s : Nat) : Lays s [] (ifStatement g) := by
  refine Lays.pass (onward_keyword _) fun _ => Lays.keep (lays_parenthesized hg) fun condition => ?_
  refine Lays.pass (onward_nextIs _) fun colon => Lays.ite ?_ ?_
  · refine Lays.pass (onward_symbol _) fun _ => Lays.keep (lays_statementsUntil hg _) fun statements => ?_
    refine Lays.pass onward_turns fun fuel => Lays.keep (lays_colonAlternatives hg fuel) fun others => ?_
    refine Lays.pass (onward_keyword _) fun _ => Lays.pass onward_semicolon fun _ => ?_
    exact lays_pure (by simp)
  · refine Lays.keep hg.statement fun statement => Lays.pass onward_turns fun fuel => ?_
    exact Lays.keep (lays_plainAlternatives hg fuel) fun others => lays_pure (by simp)

/-! ## Loops -/

theorem lays_forStatement (s : Nat) : Lays s [] (forStatement g) := by
  have hpart : ∀ closing s, Lays s [] (loopPart g closing) := fun closing s =>
    Lays.pass (onward_nextIs _) fun empty =>
      Lays.ite (lays_none s) (lays_commaList1 (hg.expression _) s)
  refine Lays.pass (onward_keyword _) fun _ => Lays.keep (fun s => Lays.between ?_) fun head => ?_
  · refine Lays.keep (hpart _) fun first => Lays.pass (onward_symbol _) fun _ => ?_
    refine Lays.keep (hpart _) fun condition => Lays.pass (onward_symbol _) fun _ => ?_
    exact Lays.keep (hpart _) fun step => lays_pure (by simp)
  · exact Lays.keep (lays_loopBody hg _ _) fun body => lays_pure (by simp)

theorem lays_foreachStatement (s : Nat) : Lays s [] (foreachStatement g) := by
  have htarget : ∀ s, Lays s [] (foreachStatement.target g) := fun s =>
    Lays.pass (onward_nextIs _) fun reference =>
      Lays.ite (lays_byReference hg s) ((hg.expression _ s).orElse (lays_listPattern hg s))
  refine Lays.pass (onward_keyword _) fun _ => Lays.keep (fun s => Lays.between ?_) fun head => ?_
  · refine Lays.keep (hg.expression _) fun subject => Lays.pass (onward_keyword _) fun _ => ?_
    refine Lays.keep htarget fun first => Lays.pass (onward_nextIs _) fun arrow => Lays.ite ?_ ?_
    · refine Lays.pass (onward_require _) fun _ => Lays.pass (onward_symbol _) fun _ => ?_
      exact Lays.keep htarget fun second => lays_pure (by simp)
    · exact lays_pure (by simp)
  · exact Lays.keep (lays_loopBody hg _ _) fun body => lays_pure (by simp)

/-! ## Choices and handlers -/

theorem lays_switchCases (s : Nat) : Lays s [] (switchCases g) := by
  have hcolon : Onward (symbol ":" <|> symbol ";") := (onward_symbol _).orElse (onward_symbol _)
  refine Lays.keep (lays_many fun s => ?_) fun cases => lays_pure (by simp)
  refine Lays.pass onward_nextWord fun word => ?_
  extract_lets body
  have hbody : ∀ condition, Lays s condition (body condition) := fun condition =>
    Lays.pass hcolon fun _ => Lays.keep (lays_statementsUntil hg _) fun _ => lays_pure (by simp)
  refine Lays.ite ?_ ?_
  · exact Lays.pass (onward_keyword _) fun _ => hbody []
  · refine Lays.pass (onward_keyword _) fun _ => Lays.keep (hg.expression _) fun e => ?_
    exact hbody [e]

theorem lays_switchStatement (s : Nat) : Lays s [] (switchStatement g) := by
  refine Lays.pass (onward_keyword _) fun _ => Lays.keep (lays_parenthesized hg) fun subject => ?_
  refine Lays.pass (onward_nextIs _) fun colon => Lays.ite ?_ ?_
  · refine Lays.pass (onward_symbol _) fun _ => Lays.keep (lays_switchCases hg) fun cases => ?_
    refine Lays.pass (onward_keyword _) fun _ => Lays.pass onward_semicolon fun _ => ?_
    exact lays_pure (by simp)
  · exact Lays.keep (fun s => (lays_switchCases hg s).between) fun cases => lays_pure (by simp)

omit hg in
theorem onward_caught : Onward caught := by
  have hmore : Onward (symbol "|" *> anyName) := by
    rw [seqRight_eq_bind]
    exact (onward_symbol _).bind fun _ => Lays.onward lays_anyName
  refine (Lays.onward lays_anyName).bind fun _ => hmore.many.bind fun _ => ?_
  refine (onward_nextIs _).bind fun named => ?_
  split
  · exact (Lays.onward lays_dollarName).bind fun _ => onward_pure _
  · exact onward_pure _

theorem lays_handlers : ∀ fuel s, Lays s [] (handlers g fuel)
  | 0, _ => lays_failure
  | fuel + 1, s => by
    rw [handlers]
    refine Lays.pass onward_nextWord fun word => ?_
    split
    · refine Lays.pass (onward_keyword _) fun _ => Lays.keep (lays_block hg) fun b => ?_
      exact Lays.keep (lays_handlers fuel) fun more => lays_pure (by simp)
    · refine Lays.pass (onward_keyword _) fun _ => Lays.pass onward_caught.between fun _ => ?_
      refine Lays.keep (lays_block hg) fun b => Lays.keep (lays_handlers fuel) fun more => ?_
      exact lays_pure (by simp)
    · exact lays_none s

theorem lays_tryStatement (s : Nat) : Lays s [] (tryStatement g) := by
  refine Lays.pass (onward_keyword _) fun _ => Lays.keep (lays_block hg) fun first => ?_
  refine Lays.pass onward_turns fun fuel => Lays.keep (lays_handlers hg fuel) fun others => ?_
  exact Lays.pass (onward_require _) fun _ => lays_pure (by simp)

/-! ## Simple statements -/

theorem lays_declareStatement (s : Nat) : Lays s [] (declareStatement g) := by
  have hliteral : ∀ s, Lays s [] (literal g) := fun s => by
    refine Lays.pass onward_ahead fun bytes => ?_
    refine Lays.ite (lays_number s) (Lays.ite (lays_anyString hg s) ?_)
    refine Lays.ite (lays_leaf (onward_keyword _) s) ?_
    exact Lays.pass (onward_require _) fun _ => lays_leaf (onward_keyword _) s
  refine Lays.pass (onward_keyword _) fun _ => Lays.keep (fun s => Lays.between ?_) fun value => ?_
  · refine Lays.pass onward_ahead fun _ => Lays.pass (onward_require _) fun _ => ?_
    exact Lays.pass onward_identifier fun _ => Lays.pass (onward_symbol _) fun _ => hliteral s
  · exact Lays.keep (lays_loopBody hg _ _) fun body => lays_pure (by simp)

theorem lays_wordStatement (word : String) (s : Nat) : Lays s [] (wordStatement g word) := by
  refine Lays.pass (onward_keyword _) fun _ => Lays.pass onward_semicolon.maybe fun empty => ?_
  split
  · exact lays_none s
  · refine Lays.keep (fun s => (hg.expression _ s).last) fun e => ?_
    exact Lays.pass onward_semicolon fun _ => lays_pure (by simp)

omit hg in
theorem lays_listStatement {α : Type} [HasNodes α] {entry : Reader α} (hentry : ∀ s, Lays s [] entry)
    (word : String) (s : Nat) : Lays s [] (listStatement word entry) := by
  refine Lays.pass (onward_keyword _) fun _ => ?_
  refine Lays.keep (fun s => (lays_commaList1 hentry s).last) fun entries => ?_
  exact Lays.pass onward_semicolon fun _ => lays_pure (List.Sublist.refl _)

theorem lays_expressionStatement (s : Nat) : Lays s [] (expressionStatement g) := by
  refine Lays.pass onward_openGap fun _ => Lays.position fun start => ?_
  refine Lays.keep (fun s => (hg.expression _ s).last) fun e => ?_
  exact Lays.pass onward_semicolon fun _ => lays_nodeFrom (by simp)

theorem lays_exitStatement (s : Nat) : Lays s [] (exitStatement g) := by
  refine Lays.pass (onward_keyword _) fun _ => Lays.keep (fun s => Lays.last ?_) fun e => ?_
  · refine Lays.pass (onward_thenIs _) fun called => Lays.ite (Lays.between ?_) (lays_none s)
    refine Lays.pass (onward_nextIs _) fun empty => Lays.ite (lays_none s) ?_
    exact Lays.keep (hg.expression _) fun _ => lays_pure (by simp)
  · exact Lays.pass onward_semicolon fun _ => lays_pure (by simp)

theorem lays_unsetStatement (s : Nat) : Lays s [] (unsetStatement g) := by
  refine Lays.pass (onward_keyword _) fun _ => ?_
  refine Lays.keep (fun s => (lays_openList1 hg.place s).between) fun places => ?_
  exact Lays.pass onward_semicolon fun _ => lays_pure (by simp)

theorem lays_staticVariables (s : Nat) : Lays s [] (staticVariables g) := by
  refine Lays.keep (lays_listStatement (fun s => ?_) _) fun entries => lays_pure (by simp)
  exact Lays.keep lays_dollarName fun name => Lays.keep (lays_defaultValue hg) fun _ =>
    lays_pure (by simp)

theorem lays_functionStatement (attrs : List Node) (s : Nat) :
    Lays s attrs (functionStatement g s attrs) := by
  refine Lays.pass (onward_keyword _) fun _ => Lays.pass (onward_symbol _).maybe fun _ => ?_
  refine Lays.pass onward_identifier fun _ => Lays.keep (lays_parameters hg) fun ps => ?_
  refine Lays.keep lays_returnType fun type => Lays.keep (lays_block hg) fun code => ?_
  exact lays_nodeFrom (by simp)

/-! ## Namespaces and imports -/

theorem lays_namespaceStatement (s : Nat) : Lays s [] (namespaceStatement g) := by
  have hname : ∀ s, Lays s [] namespaceName := fun s =>
    Lays.keep lays_path fun n => lays_over rfl (List.nil_sublist _)
  refine lays_nodeOf (fun s => Lays.pass (onward_keyword _) fun _ => Lays.last ?_) s
  refine Lays.pass (onward_nextIs _) fun _ => ?_
  refine Lays.keepIf lays_none (fun s => (hname s).map fun _ => by simp) fun name => ?_
  refine Lays.pass (onward_thenIs _) fun braced => Lays.ite ?_ ?_
  · exact Lays.keep (lays_block hg) fun _ => lays_pure (by simp)
  · refine Lays.pass (onward_require _) fun _ => Lays.pass onward_semicolon fun _ => ?_
    exact lays_pure (by simp)

omit hg in
theorem onward_importedName {name : Reader Node} (h : Onward name) : Onward (importedName name) := by
  refine h.bind fun _ => (onward_thenWord _).bind fun renamed => ?_
  split
  · exact (onward_keyword _).bind fun _ => onward_identifier.bind fun _ => onward_pure _
  · exact onward_pure _

omit hg in
theorem onward_importWord : Onward importWord := by
  refine onward_nextWord.bind fun word => ?_
  split
  · exact onward_keyword _
  · exact onward_pure _

omit hg in
theorem onward_groupFront : Onward groupFront :=
  (onward_symbol _).maybe.bind fun _ => onward_nextWord.bind fun _ => (onward_require _).bind fun _ =>
    onward_identifier.bind fun _ => onward_segment.many.bind fun _ => onward_symbol _

omit hg in
theorem lays_useStatement (s : Nat) : Lays s [] useStatement := by
  have hopen : Onward (groupFront *> symbol "\x7b") := by
    rw [seqRight_eq_bind]
    exact onward_groupFront.bind fun _ => onward_symbol _
  have hmember : Onward (importWord *> importedName path) := by
    rw [seqRight_eq_bind]
    exact onward_importWord.bind fun _ => onward_importedName (Lays.onward lays_path)
  have hname : Onward (importedName anyName) := onward_importedName (Lays.onward lays_anyName)
  refine lays_nodeOf (fun s => Lays.pass (onward_keyword _) fun _ => ?_) s
  refine Lays.pass onward_importWord fun _ => Lays.pass (Onward.last ?_) fun _ => lays_none s
  refine hopen.maybe.bind fun grouped => ?_
  split
  · refine hmember.commaList1.inner.bind fun _ => (onward_symbol _).bind fun _ => ?_
    exact onward_semicolon
  · exact hname.commaList1.bind fun _ => onward_semicolon

/-! ## Statements -/

theorem lays_attributedStatement (s : Nat) : Lays s [] (attributedStatement g) := by
  refine Lays.orElse ?_ (lays_expressionStatement hg s)
  refine Lays.pass onward_openGap fun _ => Lays.position fun start => ?_
  refine Lays.keepSuch (lays_attributes hg) finds_attributes fun attrs hattrs => ?_
  refine Lays.pass onward_ahead fun bytes => ?_
  refine Lays.ite (lays_functionStatement hg [attrs] start) (Lays.pass (onward_require _) fun _ => ?_)
  have hwhole : attrs.IsWhole := Node.isWhole_of_kind hattrs (by decide)
  exact lays_declarationFrom hg (List.forall_mem_singleton.2 hwhole) start

theorem lays_statementAt (bytes : Bytes) (s : Nat) : Lays s [] (statementAt g s bytes) := by
  have hexpression := lays_expressionStatement hg s
  have hdeclaration := lays_declarationFrom hg (List.forall_mem_nil _) s
  unfold statementAt
  dsimp only
  split
  · exact lays_nodeOf (lays_ifStatement hg) s
  · refine lays_nodeOf (fun s => Lays.pass (onward_keyword _) fun _ => ?_) s
    exact Lays.keep (lays_parenthesized hg) fun condition => Lays.keep (lays_loopBody hg _ _) fun _ =>
      lays_pure (by simp)
  · refine lays_nodeOf (fun s => Lays.pass (onward_keyword _) fun _ => ?_) s
    refine Lays.keep hg.statement fun statement => Lays.pass (onward_keyword _) fun _ => ?_
    refine Lays.keep (lays_parenthesized hg) fun condition => Lays.pass onward_semicolon fun _ => ?_
    exact lays_pure (by simp)
  · exact lays_nodeOf (lays_forStatement hg) s
  · exact lays_nodeOf (lays_foreachStatement hg) s
  · exact lays_nodeOf (lays_switchStatement hg) s
  · exact lays_nodeOf (lays_tryStatement hg) s
  · exact lays_nodeOf (lays_declareStatement hg) s
  · exact lays_nodeOf (lays_listStatement (hg.expression _) _) s
  · exact lays_nodeOf (lays_wordStatement hg _) s
  · exact lays_nodeOf (lays_wordStatement hg _) s
  · exact lays_nodeOf (lays_wordStatement hg _) s
  · refine lays_nodeOf (fun s => Lays.pass (onward_keyword _) fun _ => ?_) s
    exact Lays.pass onward_identifier fun _ => Lays.pass onward_semicolon fun _ => lays_none s
  · exact lays_nodeOf (lays_listStatement (lays_simpleVariable hg) _) s
  · exact lays_nodeOf (lays_exitStatement hg) s
  · exact lays_useStatement s
  · exact (lays_namespaceStatement hg s).orElse hexpression
  · exact Lays.ite (lays_functionStatement hg [] s) hexpression
  · exact Lays.ite (lays_nodeOf (lays_staticVariables hg) s) (Lays.ite hdeclaration hexpression)
  · refine Lays.ite hdeclaration (Lays.ite (lays_nodeOf (fun s => ?_) s) hexpression)
    exact Lays.pass onward_identifier fun _ => Lays.pass (onward_symbol _) fun _ => lays_none s

theorem lays_statementWith (s : Nat) : Lays s [] (statementWith g) := by
  refine Lays.inner (Lays.pass onward_openGap fun _ => Lays.pass onward_remaining fun bytes => ?_)
  refine Lays.position fun start => Lays.ite (lays_block hg start) ?_
  refine Lays.ite (lays_leaf (onward_advance _) start) ?_
  refine Lays.ite (lays_attributedStatement hg start) ?_
  refine Lays.ite (lays_nodeOf (lays_unsetStatement hg) start) ?_
  refine Lays.ite (lays_statementAt hg bytes start) ?_
  exact Lays.pass (onward_require _) fun _ => lays_expressionStatement hg start

/-! ## Files -/

theorem laysOut_next (longHeredocs : Bool) :
    Grammar.LaysOut ⟨expressionWith g, operandWith g, statementWith g, longHeredocs⟩ :=
  ⟨lays_expressionWith hg, lays_operandWith hg, lays_statementWith hg⟩

end

/-- By induction on the depth of nesting. -/
theorem laysOut_upTo (longHeredocs : Bool) : ∀ n, (Grammar.upTo longHeredocs n).LaysOut
  | 0 => ⟨fun _ _ => lays_failure, fun _ => lays_failure, fun _ => lays_failure⟩
  | n + 1 => laysOut_next (laysOut_upTo longHeredocs n) longHeredocs

theorem lays_program {g : Grammar} (hg : g.LaysOut) : Lays 0 [] (program g) := by
  unfold program
  refine Lays.pass onward_remaining fun bytes => ?_
  split
  · exact lays_failure
  · refine Lays.pass (onward_advance _) fun _ => Lays.keep (lays_many hg.statement) fun statements => ?_
    refine Lays.pass onward_gap fun _ => Lays.pass onward_remaining fun _ => ?_
    exact Lays.pass (onward_require _) fun _ => lays_nodeFrom (by simp)

/-- The nodes of every source are in order, and in its texts each part stands where something opens. -/
theorem laid_of_parse? {source : Bytes} {tree : Node} (h : parse? source = some tree) :
    Laid source tree.start tree.stop [tree] := by
  have hby : ∀ {long}, parseBy? long source = some tree → Laid source tree.start tree.stop [tree] := by
    intro long hlong
    obtain ⟨p, hrun, rfl⟩ := Option.map_eq_some_iff.1 hlong
    obtain ⟨-, htree⟩ :=
      lays_program (laysOut_upTo long _) ⟨rfl, rfl⟩ (Laid.nil (Nat.le_refl _)) hrun
    exact htree.narrow.2.1
  unfold parse? at h
  split at h
  · rename_i heq
    cases h
    exact hby heq
  · exact hby h

/-- The nodes of every source are in order. -/
theorem isOrderly_of_parse? {source : Bytes} {tree : Node} (h : parse? source = some tree) :
    tree.IsOrderly := (laid_of_parse? h).inOrder.isOrderly List.mem_cons_self

end FacadeStubs.Php
