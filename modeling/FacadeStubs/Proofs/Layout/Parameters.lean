import FacadeStubs.Proofs.Layout.Rules

/-!
# Nodes of parameters and arrays in order

What stands in front of bodies: variables, types, arguments, attributes and parameters, and the elements
of arrays and lists.
-/
namespace FacadeStubs.Php

open Lexical Reader

/-! ## Types -/

section
variable {source : Bytes}

/-- A type over the same stretch as a name that was read. -/
theorem laid_over (kind : Kind) {m : Node} {s hi : Nat} {children : List Node} (h : Laid source s hi [m])
    (hsub : children.Sublist [m]) (hkind : kind.isType = true)
    (hbuilt : (Node.mk kind m.start m.stop children).IsBuilt source) :
    Laid source s hi [.mk kind m.start m.stop children] := by
  obtain ⟨hstart, hin, hstop⟩ := h.narrow
  have hfits : (Node.mk kind m.start m.stop children).Fits source :=
    (Node.fits_type_iff (show (Node.mk kind _ _ _).kind.isType = true from hkind)).2 hbuilt
  exact ((hin.sublist hsub).node hfits).mono hstart hstop

end

theorem lays_plainType (s : Nat) : Lays s [] plainType := by
  intro source c d n hc hns hrun
  obtain ⟨-, -, hnamed⟩ := ensures_plainType hc hrun
  have hbuilt : n.IsBuilt source := ⟨fun names => (hnamed names).isSimpleOf.isBuiltOf⟩
  unfold plainType at hrun
  rw [run_bind_some run_ahead] at hrun
  split at hrun
  · obtain ⟨m, hword, rfl⟩ := of_yields hrun
    obtain ⟨hd, hlaid⟩ := lays_identifier s hc hns hword
    rw [nodes_node] at hlaid ⊢
    exact ⟨hd, laid_over .primitiveType hlaid (List.nil_sublist _) rfl hbuilt⟩
  · obtain ⟨m, hname, rfl⟩ := of_yields hrun
    obtain ⟨hd, hlaid⟩ := lays_anyName s hc hns hname
    rw [nodes_node] at hlaid ⊢
    exact ⟨hd, laid_over .namedType hlaid (List.Sublist.refl _) rfl hbuilt⟩

theorem lays_simpleType (s : Nat) : Lays s [] simpleType := by
  refine Lays.pass (onward_nextIs _) fun nullable => ?_
  cases nullable with
  | true =>
    refine lays_nodeOf_fits (fun s => Lays.pass (onward_symbol _) fun _ => ?_) ?_ s
    · exact Lays.keep lays_plainType fun _ => lays_pure (by simp)
    · intro source c d children hc hrun
      obtain ⟨_, e, hmark, hrun⟩ := run_bind_eq_some hrun
      obtain ⟨named, hplain, rfl⟩ := of_yields hrun
      obtain ⟨-, -, hnamed⟩ := ensures_plainType (onward_symbol _ hc hmark).1 hplain
      refine (Node.fits_type_iff rfl).2 ⟨fun names => .inl ?_⟩
      rw [typeHint_optional rfl rfl]
      exact hnamed names
  | false => exact lays_plainType s

theorem lays_joinedType (s : Nat) : Lays s [] joinedType :=
  Lays.pass onward_behindOperand fun _ => Lays.pass (onward_require _) fun _ =>
    Lays.pass (onward_symbol _) fun _ => lays_simpleType s

theorem lays_groupedType (s : Nat) : Lays s [] groupedType := by
  refine Lays.between (lays_nodeOf_fits (fun s => ?_) ?_ s)
  · exact Lays.keep lays_simpleType fun _ => Lays.keep (lays_many lays_joinedType) fun _ =>
      lays_pure (by simp)
  · intro source c d children hc hrun
    obtain ⟨-, -, hne, hsimple⟩ := ensures_joinedRow hc hrun
    exact (Node.fits_type_iff rfl).2 (built_intersection rfl hne hsimple)

theorem lays_unionMember (s : Nat) : Lays s [] unionMember := by
  refine Lays.pass (onward_nextIs _) fun grouped => ?_
  cases grouped with
  | true => exact lays_groupedType s
  | false => exact lays_simpleType s

/-- A type behind a bar. -/
theorem lays_barredMember (s : Nat) : Lays s [] (do
    require (← thenIs "|")
    symbol "|"
    unionMember) :=
  Lays.pass (onward_thenIs _) fun _ => Lays.pass (onward_require _) fun _ =>
    Lays.pass (onward_symbol _) fun _ => lays_unionMember s

/-- Behind the first member of a type come more of them, or nothing. -/
theorem lays_typeHint (s : Nat) : Lays s [] typeHint := by
  intro source c d n hc hns hrun
  obtain ⟨-, hbuilt, -⟩ := shape_typeHint hc hrun
  unfold typeHint at hrun
  rw [run_bind_some run_gap, run_bind_some run_position, run_bind_some (run_nextIs _)] at hrun
  have hle : s ≤ (c.past (gaps c.rest)).offset := Nat.le_trans hns.le (Nat.le_add_right _ _)
  obtain ⟨first, e, hfirst, hrun⟩ := run_bind_eq_some hrun
  obtain ⟨he, hlaid⟩ := lays_unionMember _ (hc.past _) (Laid.nil (Nat.le_refl _)) hfirst
  obtain ⟨w, hw⟩ := exists_behindOperand e
  rw [run_bind_some hw] at hrun
  split at hrun
  · obtain ⟨more, e', hmany, hnode⟩ := run_bind_eq_some hrun
    obtain ⟨he', hmore⟩ := lays_many lays_joinedType _ he (Laid.nil (Nat.le_refl _)) hmany
    rw [nodes_list] at hmore
    rw [run_nodeFrom] at hnode
    cases hnode
    exact ⟨he', ((hlaid.append hmore).node ((Node.fits_type_iff rfl).2 hbuilt)).mono hle (Nat.le_refl _)⟩
  · obtain ⟨more, e', hmany, hrun⟩ := run_bind_eq_some hrun
    obtain ⟨he', hmore⟩ := lays_many lays_barredMember _ he (Laid.nil (Nat.le_refl _)) hmany
    rw [nodes_list] at hmore
    have hrow := hlaid.append hmore
    split at hrun
    · cases hrun
      exact ⟨he', (hrow.sublist (by simp)).mono hle (Nat.le_refl _)⟩
    · rw [run_nodeFrom] at hrun
      cases hrun
      exact ⟨he', (hrow.node ((Node.fits_type_iff rfl).2 hbuilt)).mono hle (Nat.le_refl _)⟩

theorem finds_simpleType : Finds simpleType fun n => n.kind.isType = true := by
  have hplain : Finds plainType fun n => n.kind.isType = true := by
    refine Finds.behind fun bytes => ?_
    split
    · exact Finds.behind fun _ => finds_pure rfl
    · exact Finds.behind fun _ => finds_pure rfl
  refine Finds.behind fun nullable => ?_
  split
  · have hinner : Finds (do symbol "?"; return [← plainType]) fun _ => True := fun _ _ _ _ => trivial
    intro c d n hrun
    rw [(finds_nodeOf hinner hrun).1]
    rfl
  · exact hplain

theorem finds_typeHint : Finds typeHint fun n => n.kind.isType = true := by
  have hmember : Finds unionMember fun n => n.kind.isType = true := by
    refine Finds.behind fun grouped => ?_
    split
    · have hrow : Finds (do return (← simpleType) :: (← many joinedType)) fun _ => True :=
        fun _ _ _ _ => trivial
      intro c d n hrun
      rw [((finds_nodeOf hrow).between hrun).1]
      rfl
    · exact finds_simpleType
  refine Finds.behind fun _ => Finds.behind fun start => Finds.behind fun grouped => ?_
  refine hmember.bind fun first hfirst => Finds.behind fun bytes => ?_
  split
  · exact Finds.behind fun more c d n hrun => by rw [(finds_nodeFrom _ _ _ hrun).1]; rfl
  · refine Finds.behind fun more => ?_
    split
    · exact finds_pure hfirst
    · intro c d n hrun
      rw [(finds_nodeFrom _ _ _ hrun).1]
      rfl

theorem finds_returnType : Finds returnType fun ns => ∀ n ∈ ns, n.kind.isType = true := by
  refine Finds.behind fun follows => ?_
  split
  · refine Finds.behind fun _ => Finds.behind fun bytes => ?_
    split
    · exact Finds.behind fun _ => finds_pure (List.forall_mem_singleton.2 rfl)
    · exact finds_typeHint.bind fun n hn => finds_pure (List.forall_mem_singleton.2 hn)
  · exact finds_pure (List.forall_mem_nil _)

theorem lays_returnType (s : Nat) : Lays s [] returnType := by
  refine Lays.pass (onward_thenIs _) fun follows => ?_
  split
  · refine Lays.pass (onward_symbol _) fun _ => ?_
    intro source c d ns hc hns hrun
    rw [run_bind_some run_ahead] at hrun
    split at hrun
    · rename_i hnever
      obtain ⟨m, hword, rfl⟩ := of_yields hrun
      obtain ⟨hd, hlaid⟩ := lays_identifier s hc hns hword
      have hnamed := isNamed_never hc hword hnever
      exact ⟨hd, laid_over .primitiveType hlaid (List.nil_sublist _) rfl
        ⟨fun names => (hnamed names).isSimpleOf.isBuiltOf⟩⟩
    · exact Lays.keep lays_typeHint (fun _ => lays_pure (by simp)) hc hns hrun
  · exact lays_pure (List.Sublist.refl _)

/-! ## Variables and arguments -/

section
variable {g : Grammar} (hg : g.LaysOut)
include hg

theorem lays_simpleVariable (s : Nat) : Lays s [] (simpleVariable g) := by
  have hgo : ∀ fuel s, Lays s [] (simpleVariable.go g fuel) := by
    intro fuel
    induction fuel with
    | zero => exact fun s => lays_failure
    | succ fuel ih =>
      intro s
      rw [simpleVariable.go]
      refine Lays.pass onward_gap fun _ => Lays.position fun start => ?_
      refine Lays.pass (onward_symbol _) fun _ => Lays.pass onward_ahead fun bytes => ?_
      split
      · exact Lays.keep ih fun _ => lays_nodeFrom (by simp)
      · split
        · refine Lays.keep (fun s => (hg.expression _ s).between) fun _ => ?_
          exact lays_nodeFrom (by simp)
        · exact Lays.pass onward_identifier fun _ => lays_nodeFrom (List.nil_sublist _)
  exact Lays.pass onward_turns fun fuel => hgo fuel s

theorem lays_byReference (s : Nat) : Lays s [] (byReference g) :=
  lays_nodeOf (fun _ => Lays.pass (onward_symbol _) fun _ =>
    Lays.keep hg.place fun _ => lays_pure (by simp)) s

theorem lays_block (s : Nat) : Lays s [] (block g) :=
  lays_nodeOf (fun s => (lays_many hg.statement s).between) s

omit hg in
theorem finds_block : Finds (block g) fun n => n.kind = .block := by
  have hstatements : Finds (between "\x7b" "\x7d" (many g.statement)) fun _ => True :=
    fun _ _ _ _ => trivial
  exact fun _ _ _ hrun => (finds_nodeOf hstatements hrun).1

theorem lays_unpacking (s : Nat) : Lays s [] (unpacking g) :=
  lays_nodeOf (fun _ => Lays.pass (onward_symbol _) fun _ =>
    Lays.keep (hg.expression _) fun _ => lays_pure (by simp)) s

theorem lays_argument (s : Nat) : Lays s [] (argument g) := by
  refine Lays.pass onward_openAhead fun _ => ?_
  extract_lets value
  have hvalue : Lays s [] (value ()) := by
    refine Lays.pass (onward_symbol _).maybe fun _ => Lays.pass onward_openAhead fun bytes => ?_
    split
    · exact lays_identifier s
    · split
      · exact lays_unpacking hg s
      · exact hg.expression _ s
  split
  · refine Lays.pass onward_openGap fun _ => Lays.pass onward_identifier fun _ => ?_
    exact Lays.pass (onward_symbol _) fun _ => hvalue
  · exact hvalue

theorem lays_arguments (s : Nat) : Lays s [] (arguments g) := by
  have hpartial : ∀ s, Lays s [] partialCall := fun s =>
    Lays.keep (lays_leaf (onward_symbol _)) fun _ => Lays.pass (onward_nextIs _) fun _ =>
      Lays.pass (onward_require _) fun _ => lays_pure (by simp)
  exact lays_nodeOf (fun s => ((hpartial s).orElse (lays_openList (lays_argument hg) s)).between) s

/-! ## Attributes and modifiers -/

theorem lays_oneAttribute (s : Nat) : Lays s [] (oneAttribute g) := by
  refine Lays.pass (Lays.onward lays_anyName) fun _ => Lays.pass (onward_nextIs _) fun called => ?_
  split
  · exact Lays.keep (lays_arguments hg) fun _ => lays_pure (by simp)
  · exact lays_pure (List.Sublist.refl _)

theorem lays_attributes (s : Nat) : Lays s [] (attributes g) := by
  have hgroup : ∀ s, Lays s [] (do
      openGap
      require (beginsWith "#[" (← remaining))
      advance 2
      let entries ← inner (openList1 (oneAttribute g))
      symbol "]"
      return entries.flatten) := fun s => by
    refine Lays.pass onward_openGap fun _ => Lays.pass onward_remaining fun _ => ?_
    refine Lays.pass (onward_require _) fun _ => Lays.pass (onward_advance _) fun _ => ?_
    refine Lays.keep (fun s => (lays_openList1 (lays_oneAttribute hg) s).inner) fun entries => ?_
    exact Lays.pass (onward_symbol _) fun _ => lays_pure (by simp)
  refine Lays.pass onward_openGap fun _ => Lays.position fun start => ?_
  refine Lays.keep (lays_many hgroup) fun groups => Lays.pass (onward_require _) fun _ => ?_
  exact lays_nodeFrom (by simp)

end

theorem finds_attributes {g : Grammar} : Finds (attributes g) fun n => n.kind = .attributes :=
  Finds.behind fun _ => Finds.behind fun _ => Finds.behind fun _ => Finds.behind fun _ =>
    fun _ _ _ hrun => (finds_nodeFrom _ _ _ hrun).1

theorem onward_visibilityOperation : Onward visibilityOperation := by
  unfold visibilityOperation
  refine onward_remaining.bind fun bytes => ?_
  split
  · exact (onward_require _).bind fun _ => onward_advance _
  · exact onward_pure _

theorem isFalse_of_modifierKind? {word : String} {kind : Kind} (h : modifierKind? word = some kind) :
    IsFalse kind.isShaped := by
  unfold modifierKind? at h
  split at h <;> cases h <;> exact inferInstance

theorem finds_modifier : Finds modifier fun n => n.kind.isShaped = false := by
  refine Finds.behind fun word => ?_
  split
  · exact finds_failure
  · rename_i hkind
    intro c d n hrun
    rw [(finds_leaf _ _ hrun).1]
    exact (isFalse_of_modifierKind? hkind).eq_false

theorem lays_modifier (s : Nat) : Lays s [] modifier := by
  unfold modifier
  refine Lays.pass onward_nextWord fun word => ?_
  split
  · exact lays_failure
  · rename_i hkind
    have := isFalse_of_modifierKind? hkind
    refine lays_leaf ((onward_keyword _).bind fun _ => ?_) s
    split
    · exact onward_visibilityOperation
    · exact onward_pure _

/-! ## Parameters -/

section
variable {g : Grammar} (hg : g.LaysOut)
include hg

theorem lays_defaultValue (s : Nat) : Lays s [] (defaultValue g) := by
  refine Lays.pass (onward_thenIs _) fun follows => ?_
  split
  · refine Lays.pass (onward_symbol _) fun _ => Lays.keep (hg.expression _) fun e => ?_
    exact lays_over rfl (List.Sublist.refl _)
  · exact lays_pure (List.Sublist.refl _)

section
variable {list : Reader Node} (hlist : ∀ s, Lays s [] list)
include hlist

theorem lays_hook (s : Nat) : Lays s [] (hook g list) := by
  unfold hook
  refine Lays.keep (lays_maybeNode (lays_attributes hg)) fun attrs => ?_
  refine Lays.pass onward_nextWord fun word => Lays.passIf (onward_keyword _) ?_
  refine Lays.pass (onward_symbol _).maybe fun _ => Lays.pass onward_identifier fun _ => Lays.last ?_
  refine Lays.pass (onward_thenIs _) fun _ => ?_
  refine Lays.keepIf (fun s => (hlist s).map fun _ => (by simp)) lays_none fun ps => ?_
  refine Lays.pass (onward_thenIs _) fun arrow => ?_
  split
  · refine Lays.pass (onward_symbol _) fun _ => Lays.keep (hg.expression _) fun e => ?_
    exact Lays.pass onward_semicolon fun _ => lays_pure (by simp)
  · refine Lays.pass (onward_thenIs _) fun braced => ?_
    split
    · exact Lays.keep (lays_block hg) fun _ => lays_pure (by simp)
    · exact Lays.pass onward_semicolon fun _ => lays_pure (by simp)

theorem lays_hooks (s : Nat) : Lays s [] (hooks g list) := by
  refine lays_nodeOf (fun s => ?_) s
  refine Lays.keep (fun s => (lays_many (lays_hook hg hlist) s).between) fun _ => ?_
  exact lays_pure (by simp)

theorem lays_parameter (s : Nat) : Lays s [] (parameter g list) := by
  unfold parameter
  refine Lays.pass onward_openGap fun _ => Lays.position fun start => ?_
  refine Lays.keep (lays_maybeNode (lays_attributes hg)) fun attrs => ?_
  refine Lays.pass onward_nextWord fun word => ?_
  split
  · refine Lays.keep lays_modifier fun visibility => Lays.pass onward_nextWord fun _ => ?_
    refine Lays.keepIf (lays_maybeNode lays_modifier) lays_none fun readonly => ?_
    refine Lays.keep (lays_maybeNode lays_typeHint) fun type => Lays.pass (onward_nextIs _) fun _ => ?_
    refine Lays.keepIf (lays_byReference hg) lays_dollarName fun name => ?_
    refine Lays.keep (lays_defaultValue hg) fun default => Lays.pass (onward_nextIs _) fun _ => ?_
    refine Lays.keepIf (lays_maybeNode (lays_hooks hg hlist)) lays_none fun accessors => ?_
    exact lays_nodeFrom (by simp)
  · refine Lays.keep (lays_maybeNode lays_typeHint) fun type => ?_
    refine Lays.keep (lays_maybeNode (lays_leaf (onward_symbol _))) fun reference => ?_
    refine Lays.pass (onward_nextIs _) fun dots => ?_
    split
    · refine Lays.pass (onward_symbol _) fun _ => Lays.keep lays_dollarName fun name => ?_
      exact lays_nodeFrom (by simp)
    · refine Lays.keep lays_dollarName fun name => Lays.keep (lays_defaultValue hg) fun default => ?_
      exact lays_nodeFrom (by simp)

end

theorem lays_parameters (s : Nat) : Lays s [] (parameters g) := by
  have hwithin : ∀ depth s, Lays s [] (parametersWithin g depth) := by
    intro depth
    induction depth with
    | zero => exact fun s => lays_failure
    | succ depth ih =>
      intro s
      rw [parametersWithin]
      refine Lays.pass onward_gap fun _ => lays_nodeOf (fun s => ?_) s
      exact (lays_openList (lays_parameter hg ih) s).between
  exact Lays.pass onward_turns fun depth => hwithin depth s

omit hg in
theorem finds_parameters : Finds (parameters g) fun n => n.kind = .parameters := by
  refine Finds.behind fun depth => ?_
  cases depth with
  | zero => exact finds_failure
  | succ depth =>
    have hlist : Finds (between "(" ")" (openList (parameter g (parametersWithin g depth)))) fun _ => True :=
      fun _ _ _ _ => trivial
    exact Finds.behind fun _ _ _ _ hrun => (finds_nodeOf hlist hrun).1

/-! ## Arrays and lists -/

section
variable {entry : Reader Node} (hentry : ∀ s, Lays s [] entry)
include hentry

omit hg in
theorem lays_slots {closing : String} (s : Nat) : Lays s [] (slots closing entry) := by
  have hslot : ∀ s, Lays s [] (slots.slot closing entry) := fun s => by
    refine Lays.pass onward_openAhead fun bytes => ?_
    split
    · exact lays_none s
    · exact Lays.keep hentry fun _ => lays_pure (by simp)
  have hmore : ∀ s, Lays s [] (comma *> slots.slot closing entry) := fun s => by
    rw [seqRight_eq_bind]
    exact Lays.pass onward_comma fun _ => hslot s
  exact Lays.keep hslot fun first => Lays.keep (lays_many hmore) fun more => lays_pure (by simp)

end

theorem lays_arrayElement (s : Nat) : Lays s [] (arrayElement g) := by
  unfold arrayElement
  refine Lays.pass onward_openGap fun _ => Lays.position fun start => ?_
  refine Lays.pass onward_remaining fun bytes => ?_
  split
  · exact Lays.keep (lays_unpacking hg) fun e => lays_nodeFrom (by simp)
  · split
    · exact Lays.keep (lays_byReference hg) fun r => lays_nodeFrom (by simp)
    · refine Lays.keep (hg.expression _) fun first => Lays.pass (onward_thenIs _) fun arrow => ?_
      split
      · refine Lays.keep (lays_interpolations _) fun before => Lays.pass (onward_symbol _) fun _ => ?_
        refine Lays.keep (lays_interpolations _) fun behind => Lays.pass onward_remaining fun _ => ?_
        refine Lays.keepIf (lays_byReference hg) (hg.expression _) fun second => ?_
        exact lays_nodeFrom (by simp)
      · exact lays_nodeFrom (by simp)

theorem lays_arrayElements {opening closing : String} (s : Nat) :
    Lays s [] (arrayElements g opening closing) :=
  (lays_slots (lays_arrayElement hg) s).between

theorem lays_listPattern (s : Nat) : Lays s [] (listPattern g) := by
  have htarget : ∀ {nested : Reader Node}, (∀ s, Lays s [] nested) → ∀ s,
      Lays s [] (listTarget g nested) := fun hnested s => by
    refine Lays.pass onward_ahead fun bytes => ?_
    split
    · exact hnested s
    · split
      · exact lays_byReference hg s
      · exact hg.place s
  have hentry : ∀ {nested : Reader Node}, (∀ s, Lays s [] nested) → ∀ s,
      Lays s [] (listEntry g nested) := fun hnested s => by
    unfold listEntry
    refine Lays.pass onward_openGap fun _ => Lays.position fun start => ?_
    refine Lays.pass onward_remaining fun bytes => ?_
    split
    · exact Lays.keep (htarget hnested) fun _ => lays_nodeFrom (by simp)
    · refine Lays.keep (hg.expression _) fun first => Lays.pass (onward_nextIs _) fun arrow => ?_
      split
      · refine Lays.pass (onward_symbol _) fun _ => Lays.keep (htarget hnested) fun target => ?_
        exact lays_nodeFrom (by simp)
      · exact Lays.pass (onward_require _) fun _ => lays_nodeFrom (by simp)
  have hwithin : ∀ depth s, Lays s [] (listWithin g depth) := by
    intro depth
    induction depth with
    | zero => exact fun s => lays_failure
    | succ depth ih =>
      refine lays_nodeOf fun s => Lays.pass (onward_keyword _) fun _ => ?_
      exact (lays_slots (hentry ih) s).between
  exact Lays.pass onward_turns fun depth => hwithin depth s

end

end FacadeStubs.Php
