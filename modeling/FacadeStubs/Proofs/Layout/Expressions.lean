import FacadeStubs.Proofs.Layout.Declarations
import FacadeStubs.Proofs.Layout.Texts

/-!
# Nodes of expressions in order

Objects and their members, operators, and expressions as a whole.
-/
namespace FacadeStubs.Php

open Lexical Reader

section
variable {g : Grammar} (hg : g.LaysOut)
include hg

/-! ## Members and objects -/

theorem lays_memberName (s : Nat) : Lays s [] (memberName g) := by
  refine Lays.pass (onward_nextIs _) fun dollar => ?_
  split
  · exact lays_simpleVariable hg s
  · refine Lays.pass (onward_nextIs _) fun braced => ?_
    split
    · refine Lays.keep (fun s => (hg.expression _ s).between) fun e => ?_
      exact lays_over_fits rfl (List.Sublist.refl _) fun _ hnil => by cases hnil
    · exact lays_identifier s

theorem lays_maybeArguments (s : Nat) : Lays s [] (maybeArguments g) := by
  refine Lays.pass (onward_thenIs _) fun called => ?_
  split
  · exact Lays.keep (lays_arguments hg) fun _ => lays_pure (by simp)
  · exact lays_none s

theorem lays_subscript (s : Nat) : Lays s [] (subscript g) := by
  refine Lays.between (Lays.pass (onward_nextIs _) fun empty => ?_)
  split
  · exact lays_none s
  · exact Lays.keep (hg.expression _) fun _ => lays_pure (by simp)

theorem lays_parenthesized (s : Nat) : Lays s [] (parenthesized g) := by
  refine lays_nodeOf (fun s => Lays.between (Lays.keep (lays_interpolations _) fun before => ?_)) s
  exact Lays.keep (hg.expression _) fun _ => lays_pure (by simp)

theorem lays_heldBehind : ∀ fuel node s, Lays s [node] (heldBehind g fuel node)
  | 0, _, _ => lays_pure (List.Sublist.refl _)
  | fuel + 1, node, s => Lays.fromNode <| by
    rw [heldBehind]
    refine Lays.pass onward_behindOperand fun bytes => ?_
    split
    · refine Lays.pass (onward_symbol _) fun _ => Lays.keep (lays_memberName hg) fun name => ?_
      exact (lays_nodeFrom (by simp)).turn fun held => lays_heldBehind fuel held _
    · split
      · refine Lays.pass (onward_symbol _) fun _ => Lays.keep (lays_simpleVariable hg) fun v => ?_
        exact (lays_nodeFrom (by simp)).turn fun held => lays_heldBehind fuel held _
      · split
        · refine Lays.keep (lays_subscript hg) fun e => ?_
          exact (lays_nodeFrom (by simp)).turn fun held => lays_heldBehind fuel held _
        · exact lays_pure (List.Sublist.refl _)

theorem lays_classReference (s : Nat) : Lays s [] (classReference g) := by
  refine Lays.pass onward_turns fun fuel => Lays.pass onward_ahead fun bytes => ?_
  split
  · exact lays_parenthesized hg s
  · split
    · exact Lays.keep (lays_simpleVariable hg) fun v => lays_heldBehind hg fuel v s
    · refine Lays.keep lays_anyName fun name => Lays.pass onward_behindOperand fun _ => ?_
      split
      · exact lays_heldBehind hg fuel name s
      · exact lays_pure (List.Sublist.refl _)

theorem lays_classWithoutName (s : Nat) : Lays s [] (classWithoutName g) := by
  unfold classWithoutName
  refine Lays.keep (lays_maybeNode (lays_attributes hg)) fun attrs => ?_
  refine Lays.keep (lays_many lays_modifier) fun modifiers => Lays.pass (onward_keyword _) fun _ => ?_
  refine Lays.pass (onward_nextIs _) fun called => ?_
  refine Lays.keepIf (lays_maybeNode (lays_arguments hg)) lays_none fun args => ?_
  exact Lays.keep (lays_classTail hg) fun tail => lays_pure (by simp)

theorem lays_objectCreation (s : Nat) : Lays s [] (objectCreation g) := by
  unfold objectCreation
  refine Lays.pass onward_gap fun _ => Lays.position fun start => ?_
  refine Lays.pass (onward_keyword _) fun _ => Lays.keep (lays_interpolations _) fun before => ?_
  refine Lays.pass onward_remaining fun bytes => ?_
  split
  · refine Lays.keep (fun s => (lays_classWithoutName hg s).inner) fun parts => ?_
    exact (lays_nodeFrom (by simp)).yields fun _ => rfl
  · refine Lays.keep (lays_classReference hg) fun ref => Lays.keep (lays_maybeArguments hg) fun args => ?_
    refine (lays_nodeFrom (by simp)).turn fun made => lays_pure ?_
    split <;> exact List.Sublist.refl _

theorem lays_takenOver (s : Nat) : Lays s [] (takenOver g) := by
  have hentry : ∀ s, Lays s [] (do
      if ← nextIs "&" then byReference g else dollarName) := fun s => by
    refine Lays.pass (onward_nextIs _) fun reference => ?_
    split
    · exact lays_byReference hg s
    · exact lays_dollarName s
  refine Lays.pass onward_nextWord fun word => ?_
  split
  · exact Lays.pass (onward_keyword _) fun _ => (lays_openList1 hentry s).between
  · exact lays_none s

theorem lays_closure (attrs : List Node) (s : Nat) : Lays s attrs (closure g s attrs) := by
  unfold closure
  refine Lays.pass (onward_keyword _).maybe fun _ => Lays.pass onward_nextWord fun word => ?_
  split
  · refine Lays.keep (fun s => Lays.inner ?_) fun head => ?_
    · refine Lays.pass (onward_keyword _) fun _ => Lays.pass (onward_symbol _).maybe fun _ => ?_
      refine Lays.keep (lays_parameters hg) fun ps => Lays.keep lays_returnType fun type => ?_
      exact Lays.pass (onward_symbol _) fun _ => lays_pure (by simp)
    · exact Lays.keep (hg.expression _) fun body => lays_nodeFrom (by simp)
  · refine Lays.inner (Lays.pass (onward_keyword _) fun _ => ?_)
    refine Lays.pass (onward_symbol _).maybe fun _ => Lays.keep (lays_parameters hg) fun ps => ?_
    refine Lays.keep (lays_takenOver hg) fun taken => Lays.keep lays_returnType fun type => ?_
    exact Lays.keep (lays_block hg) fun body => lays_nodeFrom (by simp)

/-! ## Operators -/

omit hg in
theorem lays_operatorSign (o : BinaryOperator) (s : Nat) : Lays s [] (operatorSign o) :=
  lays_leaf (onward_remaining.bind fun _ => onward_advance _) s

theorem lays_operationsWithin (least : Nat) : ∀ fuel left s,
    Lays s [left] (operationsWithin g least fuel left)
  | 0, _, _ => lays_pure (List.Sublist.refl _)
  | fuel + 1, left, s => by
    rw [operationsWithin]
    refine Lays.pass onward_behindOperand fun bytes => ?_
    split
    · split
      · exact lays_pure (List.Sublist.refl _)
      · refine Lays.keep (lays_operatorSign _) fun sign => Lays.keep (hg.expression _) fun right => ?_
        have hnodes : [left] ++ nodes sign ++ nodes right = left :: ([sign] ++ [right]) := rfl
        rw [hnodes]
        exact Lays.enclosing (lays_operationsWithin least fuel _ s)
    · split
      · refine Lays.pass (onward_symbol _) fun _ => Lays.keep (fun s => Lays.inner ?_) fun middle => ?_
        · refine Lays.pass onward_openAhead fun _ => ?_
          split
          · exact lays_none s
          · exact Lays.keep (hg.expression _) fun _ => lays_pure (by simp)
        · refine Lays.pass (onward_symbol _) fun _ => Lays.keep (hg.expression _) fun other => ?_
          have hnodes : [left] ++ nodes middle ++ nodes other = left :: (middle ++ [other]) := by simp
          rw [hnodes]
          exact Lays.enclosing (lays_operationsWithin least fuel _ s)
      · exact lays_pure (List.Sublist.refl _)

/-! ## Behind an operand -/

theorem lays_scopedMember (scope : Node) (s : Nat) : Lays s [scope] (scopedMember g scope) :=
  Lays.fromNode <| by
    unfold scopedMember
    refine Lays.keep (lays_interpolations _) fun before => Lays.pass (onward_symbol _) fun _ => ?_
    refine Lays.keep (lays_interpolations _) fun behind => Lays.keep (lays_memberName hg) fun name => ?_
    refine Lays.keep (lays_maybeArguments hg) fun args => ?_
    split
    · split
      · exact (lays_nodeFrom (by simp)).yields fun _ => rfl
      · exact (lays_nodeFrom (by simp)).yields fun _ => rfl
    · exact (lays_nodeFrom (by simp)).yields fun _ => rfl

theorem lays_extension (o : Operand) (s : Nat) : Lays s [o.node] (extension g o) :=
  Lays.fromNode <| by
    unfold extension
    refine Lays.pass onward_behindOperand fun bytes => ?_
    dsimp only
    split
    · refine Lays.pass (onward_symbol _) fun _ => Lays.keep (lays_memberName hg) fun name => ?_
      refine Lays.keep (lays_maybeArguments hg) fun args => ?_
      exact (lays_nodeFrom (by simp)).yields fun _ => rfl
    · split
      · exact lays_scopedMember hg o.node _
      · split
        · refine Lays.keep (lays_subscript hg) fun e => ?_
          exact (lays_nodeFrom (by simp)).yields fun _ => rfl
        · split
          · refine Lays.keep (lays_arguments hg) fun args => ?_
            exact (lays_nodeFrom (by simp)).yields fun _ => rfl
          · refine Lays.pass (onward_require _) fun _ => Lays.pass onward_gap fun _ => ?_
            refine Lays.pass (onward_advance _) fun _ => ?_
            exact (lays_nodeFrom (by simp)).yields fun _ => rfl

theorem lays_extensionsWithin : ∀ fuel (o : Operand) s, Lays s [o.node] (extensionsWithin g fuel o)
  | 0, _, _ => lays_pure (List.Sublist.refl _)
  | fuel + 1, o, s => by
    rw [extensionsWithin]
    split
    · exact lays_pure (List.Sublist.refl _)
    · refine (lays_extension hg o s).maybe (fun longer => ?_) (lays_pure (List.Sublist.refl _))
      exact lays_extensionsWithin fuel longer s

theorem lays_assignedValue (s : Nat) : Lays s [] (assignedValue g) :=
  Lays.pass (onward_symbol _) fun _ => Lays.pass (onward_symbol _).maybe fun _ => hg.expression _ s

theorem lays_completed (o : Operand) (s : Nat) : Lays s [o.node] (completed g o) :=
  Lays.fromNode <| by
    unfold completed
    refine Lays.pass onward_behindOperand fun bytes => ?_
    dsimp only
    split
    · refine Lays.pass (onward_symbol _) fun _ => Lays.keep (hg.expression _) fun value => ?_
      exact lays_nodeFrom (by simp)
    · split
      · exact Lays.keep (lays_assignedValue hg) fun value => lays_nodeFrom (by simp)
      · split
        · refine Lays.keep (lays_leaf (onward_keyword _)) fun sign => ?_
          exact Lays.keep (lays_classReference hg) fun ref => lays_nodeFrom (by simp)
        · exact lays_pure (List.Sublist.refl _)

theorem lays_signedOperand (s : Nat) : Lays s [] (signedOperand g) :=
  Lays.keep hg.operand fun o => lays_completed hg o s

/-! ## Forms that a word introduces -/

theorem lays_introduced (rank : Rank) (word : String) (s : Nat) : Lays s [] (introduced g rank word) := by
  refine Lays.keep (lays_nodeOf fun s => ?_) fun n => lays_pure (List.Sublist.refl _)
  exact Lays.pass (onward_keyword _) fun _ => Lays.keep (hg.expression _) fun _ => lays_pure (by simp)

theorem lays_copy (s : Nat) : Lays s [] (copy g) := by
  refine Lays.keep (lays_nodeOf fun s => ?_) fun n => lays_pure (List.Sublist.refl _)
  refine Lays.pass (onward_keyword _) fun _ => Lays.keep hg.operand fun o => ?_
  exact Lays.pass (onward_require _) fun _ => lays_pure (by simp)

theorem lays_yieldExpression (s : Nat) : Lays s [] (yieldExpression g) := by
  refine lays_nodeOf (fun s => Lays.pass (onward_keyword _) fun _ => ?_) s
  refine Lays.pass onward_behindOperand fun bytes => ?_
  dsimp only
  split
  · exact Lays.pass (onward_keyword _) fun _ => Lays.keep (hg.expression _) fun _ => lays_pure (by simp)
  · split
    · exact lays_none s
    · exact lays_maybeNode (lays_arrayElement hg) s

theorem lays_matchArm (s : Nat) : Lays s [] (matchArm g) := by
  unfold matchArm
  refine Lays.pass onward_nextWord fun word => ?_
  extract_lets arm
  have harm : ∀ conditions, Lays s conditions (arm conditions) := fun conditions =>
    Lays.pass (onward_symbol _) fun _ => Lays.keep (hg.expression _) fun _ => lays_pure (by simp)
  split
  · exact Lays.pass (onward_keyword _) fun _ => Lays.keep lays_none fun none => by simpa using harm none
  · refine Lays.keep (lays_openList1 (hg.expression _)) fun conditions => ?_
    simpa using harm conditions

theorem lays_matchExpression (s : Nat) : Lays s [] (matchExpression g) := by
  refine lays_nodeOf (fun s => Lays.pass (onward_keyword _) fun _ => ?_) s
  refine Lays.keep (lays_parenthesized hg) fun subject => ?_
  refine Lays.keep (fun s => (lays_openList (lays_matchArm hg) s).between) fun arms => ?_
  exact lays_pure (by simp)

theorem lays_listAssignment (s : Nat) : Lays s [] (listAssignment g) := by
  refine Lays.keep (lays_listPattern hg) fun pattern => Lays.fromNode ?_
  refine Lays.pass onward_behindOperand fun _ => Lays.pass (onward_require _) fun _ => ?_
  exact Lays.keep (lays_assignedValue hg) fun value => lays_nodeFrom (by simp)

theorem lays_wordOperand (bytes : Bytes) (s : Nat) : Lays s [] (wordOperand g bytes) := by
  unfold wordOperand
  refine Lays.position fun start => ?_
  split
  · exact lays_objectCreation hg _
  · exact lays_copy hg _
  · exact lays_introduced hg _ _ _
  · exact lays_introduced hg _ _ _
  · exact lays_introduced hg _ _ _
  · exact lays_introduced hg _ _ _
  · exact lays_introduced hg _ _ _
  · exact lays_introduced hg _ _ _
  · exact (lays_yieldExpression hg _).yields fun _ => rfl
  · exact (lays_closure hg [] _).yields fun _ => rfl
  · exact (lays_closure hg [] _).yields fun _ => rfl
  · exact (lays_matchExpression hg _).yields fun _ => rfl
  · exact (lays_leaf (onward_keyword _) _).yields fun _ => rfl
  · exact (lays_leaf (onward_keyword _) _).yields fun _ => rfl
  · exact (lays_leaf (onward_keyword _) _).yields fun _ => rfl
  · exact (lays_listAssignment hg _).yields fun _ => rfl
  · refine (lays_nodeOf (fun s => ?_) _).yields fun _ => rfl
    exact Lays.pass (onward_keyword _) fun _ => lays_arrayElements hg s
  · dsimp only
    split
    · exact (lays_closure hg [] _).yields fun _ => rfl
    · split
      · split
        · exact Lays.keep (lays_leaf (onward_keyword _)) fun scope => lays_scopedMember hg scope _
        · exact Lays.pass (onward_require _) fun _ => (lays_identifier _).yields fun _ => rfl
      · exact (lays_anyName _).yields fun _ => rfl

/-! ## Operands -/

theorem lays_castOperand (s : Nat) : Lays s [] (castOperand g) := by
  unfold castOperand
  refine Lays.pass onward_gap fun _ => Lays.position fun start => ?_
  refine Lays.pass onward_identifier.between fun _ => Lays.keep hg.operand fun o => ?_
  refine Lays.pass (onward_require _) fun _ => ?_
  split
  · exact (lays_nodeFrom (by simp)).yields fun _ => rfl
  · exact (lays_nodeFrom (by simp)).yields fun _ => rfl

theorem lays_signed (kind : Kind) [IsFalse kind.isShaped] (rank : Rank) (sign : String) (s : Nat) :
    Lays s [] (signed g kind rank sign) := by
  refine (lays_nodeOf (fun s => ?_) s).yields fun _ => rfl
  exact Lays.pass (onward_symbol _) fun _ => Lays.keep (lays_signedOperand hg) fun _ =>
    lays_pure (by simp)

theorem lays_step (sign : String) (s : Nat) : Lays s [] (step g sign) := by
  refine (lays_nodeOf (fun s => ?_) s).yields fun _ => rfl
  exact Lays.pass (onward_symbol _) fun _ => Lays.keep hg.place fun _ => lays_pure (by simp)

omit hg in
theorem lays_number (s : Nat) : Lays s [] number := by
  refine Lays.pass onward_gap fun _ => Lays.pass onward_remaining fun bytes => ?_
  dsimp only
  split
  · exact lays_leaf (onward_advance _) s
  · exact Lays.pass (onward_require _) fun _ => lays_leaf (onward_advance _) s

theorem lays_anyString (s : Nat) : Lays s [] (anyString g) := by
  refine Lays.pass onward_ahead fun bytes => ?_
  split
  · exact lays_heredoc hg s
  · split
    · exact lays_plainString s
    · exact lays_encapsedString hg s

theorem lays_primary (s : Nat) : Lays s [] (primary g) := by
  unfold primary
  refine Lays.pass onward_openGap fun _ => Lays.pass onward_remaining fun bytes => ?_
  refine Lays.ite ((lays_number s).yields fun _ => rfl) ?_
  refine Lays.ite ((lays_anyString hg s).yields fun _ => rfl) ?_
  refine Lays.ite (lays_wordOperand hg bytes s) ?_
  refine Lays.ite ((lays_simpleVariable hg s).yields fun _ => rfl) ?_
  refine Lays.ite (lays_castOperand hg s) ?_
  refine Lays.ite ((lays_parenthesized hg s).yields fun _ => rfl) ?_
  refine Lays.ite ((lays_nodeOf (lays_arrayElements hg) s).yields fun _ => rfl) ?_
  refine Lays.ite ?_ ?_
  · refine Lays.position fun start => Lays.keep (lays_attributes hg) fun attrs => ?_
    exact (lays_closure hg [attrs] start).yields fun _ => rfl
  refine Lays.ite (lays_step hg _ s) (Lays.ite (lays_step hg _ s) ?_)
  refine Lays.ite (lays_signed hg _ _ _ s) ?_
  refine Lays.ite ((lays_anyName s).yields fun _ => rfl) ?_
  refine Lays.ite ((lays_shellCommand hg s).yields fun _ => rfl) ?_
  split
  · exact lays_signed hg _ _ _ s
  · exact lays_failure

theorem lays_operandWith (s : Nat) : Lays s [] (operandWith g) :=
  Lays.keep (lays_primary hg) fun o => Lays.pass onward_turns fun fuel =>
    lays_extensionsWithin hg fuel o s

theorem lays_expressionWith (least s : Nat) : Lays s [] (expressionWith g least) := by
  refine Lays.keep (lays_operandWith hg) fun o => (lays_completed hg o s).turn fun first => ?_
  exact Lays.pass onward_turns fun fuel => lays_operationsWithin hg least fuel first s

end

end FacadeStubs.Php
