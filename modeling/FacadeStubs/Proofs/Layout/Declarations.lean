import FacadeStubs.Proofs.Layout.Parameters

/-!
# Nodes of declarations in order

The members of classes, interfaces, traits and enums, and the declarations around them.
-/
namespace FacadeStubs.Php

open Lexical Reader

theorem lays_nameClause (kind : Kind) [IsFalse kind.isShaped] (word : String) (s : Nat) :
    Lays s [] (nameClause kind word) := by
  refine Lays.pass onward_nextWord fun next => ?_
  split
  · refine Lays.keep (lays_nodeOf fun s => ?_) fun _ => lays_pure (by simp)
    exact Lays.pass (onward_keyword _) fun _ => lays_nameList s
  · exact lays_none s

theorem onward_enumType : Onward enumType := by
  refine (onward_nextIs _).bind fun typed => ?_
  split
  · refine (onward_symbol _).bind fun _ => onward_ahead.bind fun _ => ?_
    exact (onward_require _).bind fun _ => onward_identifier.bind fun _ => onward_pure _
  · exact onward_pure _

section
variable {g : Grammar} (hg : g.LaysOut)
include hg

/-! ## Members -/

theorem lays_constants (s : Nat) : Lays s [] (constants g) := by
  have helement : ∀ s, Lays s [] (constElement g) := lays_nodeOf fun s => by
    refine Lays.keep lays_identifier fun name => Lays.pass (onward_symbol _) fun _ => ?_
    exact Lays.keep (hg.expression _) fun _ => lays_pure (by simp)
  unfold constants
  refine Lays.pass (onward_keyword _) fun _ => Lays.pass onward_ahead fun bytes => ?_
  refine Lays.keepIf lays_none (lays_maybeNode lays_typeHint) fun type => ?_
  refine Lays.keep (fun s => (lays_commaList1 helement s).last) fun elements => ?_
  exact Lays.pass onward_semicolon fun _ => lays_pure (by simp)

omit hg in
/-- Something in braces, or the end of the declaration. -/
theorem Reader.Lays.keepOrEnd {p : Prop} [Decidable p] {r : Reader (List Node)} {s : Nat}
    {ns : List Node} {f : List Node → Reader (List Node)} (h : ∀ s, Lays s [] r)
    (hf : ∀ parts, Lays s (ns ++ parts) (f parts)) :
    Lays s ns (if p then r >>= f else semicolon >>= fun _ => pure [] >>= f) := by
  split
  · exact Lays.keep h fun parts => by simpa using hf parts
  · exact Lays.pass onward_semicolon fun _ => Lays.keep lays_none fun parts => by simpa using hf parts

theorem lays_methodParts (s : Nat) : Lays s [] (methodParts g) := by
  unfold methodParts
  refine Lays.pass (onward_keyword _) fun _ => ?_
  refine Lays.keep (lays_maybeNode (lays_leaf (onward_symbol _))) fun reference => ?_
  refine Lays.keep lays_identifier fun name => Lays.keep (lays_parameters hg) fun ps => Lays.last ?_
  refine Lays.keep lays_returnType fun type => Lays.pass (onward_thenIs _) fun braced => ?_
  exact Lays.keepOrEnd (fun s => (lays_block hg s).map fun _ => by simp) fun body => lays_pure (by simp)

omit hg in
/-- The name of a method is a single word. -/
theorem finds_methodParts : Finds (methodParts g) fun ns => ∀ n ∈ ns, n.IsWhole := by
  have hbody : Finds ((fun n => [n]) <$> block g) fun ns => ∀ n ∈ ns, n.IsWhole := by
    rw [map_eq_pure_bind]
    exact finds_block.bind fun n hn => finds_pure
      (List.forall_mem_singleton.2 (Node.isWhole_of_kind hn (by decide)))
  unfold methodParts
  refine Finds.behind fun _ => (finds_maybeNode (finds_leaf _ _)).bind fun reference href => ?_
  refine Finds.bind (finds_leaf _ _) fun name hname => finds_parameters.bind fun ps hps => ?_
  refine Finds.withTagEnds (finds_returnType.bind fun type htype => Finds.behind fun braced => ?_)
  have hwhole : ∀ body : List Node, (∀ n ∈ body, n.IsWhole) →
      ∀ n ∈ reference ++ [name, ps] ++ type ++ body, n.IsWhole := by
    intro body hbody n hn
    simp only [List.mem_append, List.mem_cons, List.not_mem_nil, or_false] at hn
    rcases hn with ((hn | rfl | rfl) | hn) | hn
    · exact Node.isWhole_of_kind (href n hn).1 (by decide)
    · exact fun _ => hname.2
    · exact Node.isWhole_of_kind hps (by decide)
    · exact Node.isWhole_of_type (htype n hn)
    · exact hbody n hn
  split
  · exact hbody.bind fun body hbody => finds_pure (hwhole body hbody)
  · exact Finds.behind fun _ => finds_pure (hwhole [] (List.forall_mem_nil _))

theorem lays_properties (s : Nat) : Lays s [] (properties g) := by
  have helement : ∀ s, Lays s [] (do
      let name ← dollarName
      return name :: (← defaultValue g)) := fun s =>
    Lays.keep lays_dollarName fun name => Lays.keep (lays_defaultValue hg) fun _ => lays_pure (by simp)
  have haccessors : ∀ s, Lays s [] (hooks g (parameters g)) := lays_hooks hg (lays_parameters hg)
  unfold properties
  refine Lays.keep (lays_maybeNode lays_typeHint) fun type => Lays.last ?_
  refine Lays.keep (lays_commaList1 helement) fun elements => Lays.pass (onward_thenIs _) fun braced => ?_
  exact Lays.keepOrEnd (fun s => (haccessors s).map fun _ => by simp) fun _ => lays_pure (by simp)

theorem lays_adaptation (s : Nat) : Lays s [] (adaptation g) := by
  unfold adaptation
  refine Lays.pass onward_ahead fun bytes => ?_
  extract_lets rule
  have hrule : ∀ subject, Lays s [subject] (rule subject) := fun subject => Lays.fromNode <| by
    have hend : Lays subject.start [subject] (do
        semicolon
        nodeFrom .member subject.start [subject]) :=
      Lays.pass onward_semicolon fun _ => lays_nodeFrom (List.Sublist.refl _)
    refine Lays.pass onward_nextWord fun word => ?_
    split
    · exact Lays.pass (onward_keyword _) fun _ => Lays.pass onward_identifier fun _ => hend
    · refine Lays.pass (onward_keyword _) fun _ => Lays.pass onward_nextWord fun _ => ?_
      split
      · refine Lays.pass (Lays.onward lays_modifier) fun _ => Lays.pass (Onward.last ?_) fun _ => hend
        refine (Onward.maybe ?_).bind fun _ => onward_pure _
        exact onward_behindOperand.bind fun _ => (onward_require _).bind fun _ => onward_identifier
      · exact Lays.pass onward_identifier fun _ => hend
  split
  · exact Lays.keep lays_identifier hrule
  · refine Lays.keep hg.operand fun o => Lays.pass (onward_require _) fun _ => ?_
    exact hrule o.node

theorem lays_traitUse (s : Nat) : Lays s [] (traitUse g) := by
  have hrules : ∀ s, Lays s [] (between "\x7b" "\x7d" (many (adaptation g))) := fun s =>
    (lays_many (lays_adaptation hg) s).between
  unfold traitUse
  refine Lays.pass (onward_keyword _) fun _ => Lays.last ?_
  refine Lays.keep lays_nameList fun names => Lays.pass (onward_thenIs _) fun braced => ?_
  exact Lays.keepOrEnd hrules fun rules => lays_pure (by simp)

theorem lays_enumCase (s : Nat) : Lays s [] (enumCase g) := by
  unfold enumCase
  refine Lays.pass (onward_keyword _) fun _ => Lays.keep lays_identifier fun name => ?_
  refine Lays.keep (fun s => (lays_defaultValue hg s).last) fun value => ?_
  exact Lays.pass onward_semicolon fun _ => lays_pure (by simp)

theorem lays_member (inEnum : Bool) (s : Nat) : Lays s [] (member g inEnum) := by
  unfold member
  refine Lays.pass onward_openGap fun _ => Lays.position fun start => ?_
  refine Lays.pass onward_nextWord fun word => ?_
  split
  · exact Lays.keep (lays_traitUse hg) fun _ => lays_nodeFrom (by simp)
  · refine Lays.keepSuch (lays_maybeNode (lays_attributes hg)) (finds_maybeNode finds_attributes)
      fun attrs hattrs => Lays.pass onward_nextWord fun _ => ?_
    split
    · exact Lays.keep (lays_enumCase hg) fun _ => lays_nodeFrom (by simp)
    · refine Lays.keepSuch (lays_many lays_modifier) (finds_many finds_modifier)
        fun modifiers hmodifiers => ?_
      refine Lays.pass onward_nextWord fun _ => ?_
      split
      · refine Lays.keepSuch (lays_methodParts hg) finds_methodParts fun parts hparts => ?_
        refine lays_nodeFrom_fits (by simp) fun _ _ _ => Node.fits_method fun m hm => ?_
        simp only [List.mem_append] at hm
        rcases hm with (hm | hm) | hm
        · exact Node.isWhole_of_kind (hattrs m hm) (by decide)
        · exact Node.isWhole_of_shaped (hmodifiers m hm)
        · exact hparts m hm
      · refine Lays.pass (onward_require _) fun _ => Lays.keep (lays_constants hg) fun _ => ?_
        exact lays_nodeFrom (by simp)
      · refine Lays.pass (onward_require _) fun _ => Lays.keep (lays_properties hg) fun _ => ?_
        exact lays_nodeFrom (by simp)

theorem lays_memberList (inEnum : Bool) (s : Nat) : Lays s [] (memberList g inEnum) :=
  lays_nodeOf (fun s => (lays_many (lays_member hg inEnum) s).between) s

/-! ## Declarations -/

theorem lays_classTail (s : Nat) : Lays s [] (classTail g) :=
  Lays.keep (lays_nameClause _ _) fun base => Lays.keep (lays_nameClause _ _) fun faces =>
    Lays.keep (lays_memberList hg false) fun members => lays_pure (by simp)

omit hg in
theorem finds_nameClause (kind : Kind) (word : String) :
    Finds (nameClause kind word) fun ns => ∀ n ∈ ns, n.kind = kind := by
  refine Finds.behind fun next => Finds.ite ?_ (finds_pure (by simp))
  have hnames : Finds (do keyword word; nameList) fun _ => True := fun _ _ _ _ => trivial
  exact (finds_nodeOf hnames).bind fun n hn => finds_pure (by simpa using hn.1)

omit hg in
theorem finds_memberList (inEnum : Bool) : Finds (memberList g inEnum) fun n => n.kind = .memberList := by
  have hmembers : Finds (between "\x7b" "\x7d" (many (member g inEnum))) fun _ => True :=
    fun _ _ _ _ => trivial
  exact fun _ _ _ hrun => (finds_nodeOf hmembers hrun).1

omit hg in
theorem finds_classTail : Finds (classTail g) fun ns => ∀ n ∈ ns, n.IsWhole := by
  refine (finds_nameClause _ _).bind fun base hbase => (finds_nameClause _ _).bind fun faces hfaces => ?_
  refine (finds_memberList false).bind fun members hmembers => finds_pure ?_
  simp only [List.forall_mem_append, List.forall_mem_singleton]
  exact ⟨⟨fun n hn => Node.isWhole_of_kind (hbase n hn) (by decide),
    fun n hn => Node.isWhole_of_kind (hfaces n hn) (by decide)⟩, Node.isWhole_of_kind hmembers (by decide)⟩

/-- Behind whole parts, a declaration has whole parts: its name is a single word. -/
theorem lays_declarationFrom {attrs : List Node} (hattrs : ∀ m ∈ attrs, m.IsWhole) (s : Nat) :
    Lays s attrs (declarationFrom g s attrs) := by
  have hwhole : ∀ {name : Node} {front tail : List Node}, (∀ m ∈ front, m.IsWhole) →
      name.kind = .name ∧ name.children = [] → (∀ m ∈ tail, m.IsWhole) →
        ∀ m ∈ attrs ++ front ++ [name] ++ tail, m.IsWhole := by
    intro name front tail hfront hname htail m hm
    simp only [List.mem_append, List.mem_singleton] at hm
    rcases hm with ((hm | hm) | rfl) | hm
    · exact hattrs m hm
    · exact hfront m hm
    · exact fun _ => hname.2
    · exact htail m hm
  have hclause : ∀ {kind : Kind} {ns : List Node}, kind ≠ .name → (∀ n ∈ ns, n.kind = kind) →
      ∀ n ∈ ns, n.IsWhole := fun hne h n hn => Node.isWhole_of_kind (h n hn) hne
  have hmember : ∀ {n : Node}, n.kind = .memberList → n.IsWhole :=
    fun h => Node.isWhole_of_kind h (by decide)
  unfold declarationFrom
  refine Lays.pass onward_nextWord fun word => ?_
  split
  · refine Lays.pass (onward_keyword _) fun _ => ?_
    refine Lays.keepSuch lays_identifier (finds_leaf _ _) fun name hname => ?_
    refine Lays.keepSuch (lays_nameClause _ _) (finds_nameClause _ _) fun base hbase => ?_
    refine Lays.keepSuch (lays_memberList hg false) (finds_memberList _) fun members hmembers => ?_
    refine lays_nodeFrom_fits (by simp) fun _ _ _ => Node.fits_declaration ?_
    simpa using hwhole (List.forall_mem_nil _) hname (List.forall_mem_append.2
      ⟨hclause (by decide) hbase, List.forall_mem_singleton.2 (hmember hmembers)⟩)
  · refine Lays.pass (onward_keyword _) fun _ => ?_
    refine Lays.keepSuch lays_identifier (finds_leaf _ _) fun name hname => ?_
    refine Lays.keepSuch (lays_memberList hg false) (finds_memberList _) fun members hmembers => ?_
    refine lays_nodeFrom_fits (by simp) fun _ _ _ => Node.fits_declaration ?_
    simpa using hwhole (List.forall_mem_nil _) hname (List.forall_mem_singleton.2 (hmember hmembers))
  · refine Lays.pass (onward_keyword _) fun _ => ?_
    refine Lays.keepSuch lays_identifier (finds_leaf _ _) fun name hname => ?_
    refine Lays.pass onward_enumType fun _ => ?_
    refine Lays.keepSuch (lays_nameClause _ _) (finds_nameClause _ _) fun faces hfaces => ?_
    refine Lays.keepSuch (lays_memberList hg true) (finds_memberList _) fun members hmembers => ?_
    refine lays_nodeFrom_fits (by simp) fun _ _ _ => Node.fits_declaration ?_
    simpa using hwhole (List.forall_mem_nil _) hname (List.forall_mem_append.2
      ⟨hclause (by decide) hfaces, List.forall_mem_singleton.2 (hmember hmembers)⟩)
  · refine Lays.keepSuch (lays_many lays_modifier) (finds_many finds_modifier) fun modifiers hmodifiers => ?_
    refine Lays.pass onward_nextWord fun _ => ?_
    split
    · exact Lays.keep (lays_constants hg) fun _ => lays_nodeFrom (by simp)
    · refine Lays.pass (onward_keyword _) fun _ => ?_
      refine Lays.keepSuch lays_identifier (finds_leaf _ _) fun name hname => ?_
      refine Lays.keepSuch (lays_classTail hg) finds_classTail fun tail htail => ?_
      refine lays_nodeFrom_fits (by simp) fun _ _ _ => Node.fits_declaration ?_
      refine hwhole (fun m hm => ?_) hname htail
      exact Node.isWhole_of_shaped (hmodifiers m hm)

end

end FacadeStubs.Php
