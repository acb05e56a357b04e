import FacadeStubs.Proofs.Reader.Calls

/-!
# Reading methods

A stub's method is written as a comment, modifiers, a name, parameters, a return type, and a body of
one call. It is read as a method of that name with parameters of those names.

Results:
* `IsDefaultText`: texts that are read as the default of a parameter.
* `decides_parameters`: parameters with types, references, dots and defaults are read exactly if the
  defaults are.
* `reads_returnType`, `reads_body`: what stands behind the parameters.
* `decides_method`: the method as a whole.
-/
namespace FacadeStubs

/-- A method without its types, its defaults and its body. -/
structure MethodOutline where
  name : String
  visibility : Visibility
  isStatic : Bool
  params : List String
  deriving Repr, DecidableEq

def Method.outline (m : Method) : MethodOutline :=
  ⟨m.name, m.visibility, m.isStatic, m.params.map (·.name)⟩

namespace Php

open Lexical Reader Analysis

variable {source : Bytes} {b long : Bool} {g t u w s : Bytes} {n : Nat} {grammar : Grammar}

/-! ## Looking ahead -/

theorem Lexical.BeginsToken.noAttributes (h : BeginsToken w) : beginsWith "#[" w = false := by
  match w, h with
  | [], _ => rfl
  | [a], _ => simp [beginsWith, beginsWith.go]
  | a :: c :: rest, h =>
    have hcomment := h.comment false
    by_cases ha : a = 35
    · subst ha
      by_cases hc : c = 91
      · subst hc
        cases hcomment
      · simp [beginsWith, beginsWith.go, ascii, Ne.symm hc]
    · simp [beginsWith, beginsWith.go, ascii, Ne.symm ha]

theorem stops_attributes (hu : Next u w) : Stops source b (attributes grammar) u := by
  intro c _ hr
  obtain ⟨k, hk, hkw⟩ := hu.behind
  have hgap : gapsBeforeAttributes c.rest = k.length := by
    rw [hr, hkw, hk.gapsBeforeAttributes hu.token]
  have hrest : (c.past k.length).rest = w := by rw [Cursor.past_rest, hr, hkw, List.drop_left]
  have hopen : gapsBeforeAttributes w = 0 := hu.token.gapsBeforeAttributes
  unfold attributes
  rw [run_bind_some run_openGap, hgap, run_bind_some run_position]
  refine (run_bind_some (run_many_none ?_)).trans (run_bind_none (run_require_false rfl))
  rw [run_bind_some run_openGap, hrest, hopen, run_bind_some run_remaining]
  refine run_bind_none (run_require_false ?_)
  rw [Cursor.past_zero, hrest]
  exact hu.token.noAttributes

/-- A sign that begins no type. -/
theorem stops_typeHint {a : UInt8} {v : Bytes} (ha : a = 36 ∨ a = 38 ∨ a = 46 ∨ a = 41)
    (hu : Next u (a :: v)) : Stops source b typeHint u := by
  intro c _ hr
  obtain ⟨k, hk, hkw⟩ := hu.behind
  have hgap : gaps c.rest = k.length := by rw [hr, hkw, hk.gaps hu.token]
  have hrest : (c.past k.length).rest = a :: v := by
    rw [Cursor.past_rest, hr, hkw, List.drop_left]
  have hnext : Next (c.past k.length).rest (a :: v) := by rw [hrest]; exact next_token hu.token
  have hname : nameLength (a :: v) = 0 :=
    nameLength_boundary (boundary_cons (by rcases ha with rfl | rfl | rfl | rfl <;> rfl))
  have hsigns : beginsWith "(" (a :: v) = false ∧ beginsWith "?" (a :: v) = false ∧
      beginsWith "\\" (a :: v) = false := by
    rcases ha with rfl | rfl | rfl | rfl <;> exact ⟨rfl, rfl, rfl⟩
  have hprimitive : atPrimitiveType (a :: v) = false := by
    simp [atPrimitiveType, wordAt, exactWordAt, hname, folded, primitiveTypes]
  have hidentifier : identifier.run (c.past k.length) = none :=
    run_identifier_none (by rw [hnext.drop_gaps]; exact hname)
  have hpath : path.run (c.past k.length) = none := by
    unfold path
    rw [run_bind_some run_gap, hrest, hu.token.gaps, Cursor.past_zero, run_bind_some run_position,
      run_bind_some (hnext.run_nextIs _), hsigns.2.2]
    exact run_bind_none hidentifier
  have hplain : plainType.run (c.past k.length) = none := by
    unfold plainType
    rw [run_bind_some hnext.run_ahead, if_neg (by simp [hprimitive])]
    refine run_bind_none ?_
    unfold anyName
    rw [run_bind_some hnext.run_nextWord]
    exact run_bind_none hpath
  have hmember : unionMember.run (c.past k.length) = none := by
    unfold unionMember simpleType
    rw [run_bind_some (hnext.run_nextIs _), hsigns.1]
    exact (run_bind_some (hnext.run_nextIs _)).trans (by rw [hsigns.2.1]; exact hplain)
  unfold typeHint
  rw [run_bind_some run_gap, hgap, run_bind_some run_position,
    run_bind_some (hnext.run_nextIs _)]
  exact run_bind_none hmember

/-! ## Parameters -/

theorem reads_dollarName (hg : IsGap g) (hs : IsName s) :
    Reads source b dollarName (g ++ 36 :: s) Boundary
      fun x => x.IsLeaf source .dollarName (36 :: s) := by
  have htoken : Reads source b (do symbol "$"; let _ ← identifier) (36 :: s) Boundary
      fun _ => True :=
    Reads.bind (t := [36]) (reads_sign .nil rfl rfl)
      (fun _ _ => (reads_identifier .nil hs).yields fun _ _ => trivial) fun _ _ => trivial
  exact reads_leaf hg htoken fun u _ => beginsToken_solid rfl

/-- A text that is read as the default of a parameter. -/
def IsDefaultText (t : Bytes) : Prop :=
  ∀ long source n, t.length ≤ n → Reads source false
    ((Grammar.upTo long (n + 1)).expression Strength.any) (32 :: t) EndsEntry Node.IsBare

/-- A default behind an equals sign, or none. -/
def defaultBytes : Option Bytes → Bytes
  | some t => 32 :: 61 :: 32 :: t
  | none => []

theorem next_defaultBytes {d : Option Bytes} (hu : EndsEntry u) :
    ∃ w, Next (defaultBytes d ++ u) w ∧ beginsWith "=" w = d.isSome := by
  have hblank : IsGap [32] := .space rfl .nil
  cases d with
  | some t =>
    exact ⟨61 :: 32 :: (t ++ u), next_append hblank (beginsToken_solid rfl), rfl⟩
  | none =>
    obtain ⟨v, rfl | rfl⟩ := hu
    · exact ⟨_, next_token (beginsToken_solid rfl), rfl⟩
    · exact ⟨_, next_token (beginsToken_solid rfl), rfl⟩

theorem boundary_defaultBytes {d : Option Bytes} (hu : EndsEntry u) :
    Boundary (defaultBytes d ++ u) := by
  cases d with
  | some t => exact boundary_cons rfl
  | none => obtain ⟨v, rfl | rfl⟩ := hu <;> exact boundary_cons rfl

/-- A text that cannot be read as the default of a parameter. -/
def IsBrokenDefault (t : Bytes) : Prop :=
  ∀ long source n, t.length ≤ n → Breaks source false
    ((Grammar.upTo long (n + 1)).expression Strength.any) (32 :: t) EndsEntry

theorem decides_defaultValue {d : Option Bytes}
    (hd : ∀ t ∈ d, (IsDefaultText t ∨ IsBrokenDefault t) ∧ t.length ≤ n) :
    Decides source false (defaultValue (Grammar.upTo long (n + 1))) (defaultBytes d) EndsEntry
      (fun ns => ∀ x ∈ ns, x.IsBare) (∀ t ∈ d, IsDefaultText t) := by
  unfold defaultValue
  refine Decides.look (a := d.isSome) (fun c u hr hu => ?_) ?_
  · obtain ⟨w, hnext, hw⟩ := next_defaultBytes (d := d) hu
    rw [Next.run_thenIs (by rw [hr]; exact hnext), hw]
  cases d with
  | none => exact (reads_pure (by simp)).decides (by simp)
  | some t =>
    obtain ⟨ht, hn⟩ := hd t rfl
    have hblank : IsGap [32] := .space rfl .nil
    have hexpression : Decides source false ((Grammar.upTo long (n + 1)).expression Strength.any)
        (32 :: t) EndsEntry Node.IsBare (∀ s ∈ some t, IsDefaultText s) := by
      refine ⟨fun hgood => hgood t rfl long source n hn, fun hbad => ?_⟩
      exact ht.resolve_left (fun h => hbad (by simpa using h)) long source n hn
    refine Reads.thenDecides (t := [32, 61]) (reads_sign hblank rfl rfl) (fun _ _ => ?_)
      fun _ _ => trivial
    refine hexpression.yields fun e he => ?_
    simpa using isBare_of rfl (by simpa [Node.children] using he)

/-- A parameter as it is written. -/
structure ParamText where
  type : Option Bytes
  byRef : Bool
  variadic : Bool
  name : String
  default : Option Bytes

namespace ParamText

/-- The name with the dollar sign, and the default behind it. -/
def nameBytes (p : ParamText) : Bytes := 36 :: (Utf8.bytesOf p.name ++ defaultBytes p.default)

/-- What follows the reference. -/
def spreadBytes (p : ParamText) : Bytes :=
  (if p.variadic then [46, 46, 46] else []) ++ p.nameBytes

/-- What follows the type. -/
def behindType (p : ParamText) : Bytes := (if p.byRef then [38] else []) ++ p.spreadBytes

def bytes (p : ParamText) : Bytes :=
  match p.type with
  | some t => t ++ 32 :: p.behindType
  | none => p.behindType

/-- A parameter all of which but its default is well written. -/
structure Sound (p : ParamText) : Prop where
  type : ∀ t ∈ p.type, IsTypeText t
  name : IsName (Utf8.bytesOf p.name)
  trimmed : variableName ("$" ++ p.name) = p.name
  alone : p.variadic = true → p.default = none

theorem spreadBytes_cons (p : ParamText) :
    ∃ a v, p.spreadBytes = a :: v ∧ (a = 36 ∨ a = 46) := by
  unfold spreadBytes
  cases p.variadic
  · exact ⟨36, _, rfl, .inl rfl⟩
  · exact ⟨46, _, rfl, .inr rfl⟩

theorem behindType_cons (p : ParamText) :
    ∃ a v, p.behindType = a :: v ∧ (a = 36 ∨ a = 38 ∨ a = 46) := by
  obtain ⟨a, v, hav, ha⟩ := p.spreadBytes_cons
  unfold behindType
  cases p.byRef
  · exact ⟨a, v, hav, ha.imp id .inr⟩
  · exact ⟨38, _, rfl, .inr (.inl rfl)⟩

theorem begins_spreadBytes (p : ParamText) (u : Bytes) : BeginsToken (p.spreadBytes ++ u) := by
  obtain ⟨a, v, hav, rfl | rfl⟩ := p.spreadBytes_cons <;> rw [hav] <;> exact beginsToken_solid rfl

theorem begins_behindType (p : ParamText) (u : Bytes) : BeginsToken (p.behindType ++ u) := by
  obtain ⟨a, v, hav, rfl | rfl | rfl⟩ := p.behindType_cons <;> rw [hav] <;>
    exact beginsToken_solid rfl

/-- No type goes on behind a type that a parameter has. -/
theorem endsType_behindType (p : ParamText) (u : Bytes) :
    EndsType b (32 :: (p.behindType ++ u)) := by
  have hblank : IsGap [32] := .space rfl .nil
  have hnext : Next (32 :: (p.behindType ++ u)) (p.behindType ++ u) :=
    next_append hblank (p.begins_behindType u)
  have hroot : beginsWith "\\" (p.behindType ++ u) = false ∧
      beginsWith "|" (p.behindType ++ u) = false := by
    obtain ⟨a, v, hav, rfl | rfl | rfl⟩ := p.behindType_cons <;> rw [hav] <;> exact ⟨rfl, rfl⟩
  refine ⟨hnext.endsPath (boundary_cons rfl) hroot.1, _, hnext, ?_, hroot.2⟩
  unfold behindType
  cases p.byRef with
  | true =>
    obtain ⟨a, v, hav, ha⟩ := p.spreadBytes_cons
    have hgap : gaps (a :: v ++ u) = 0 := by rw [← hav]; exact (p.begins_spreadBytes u).gaps
    have hname : nameLength (a :: v ++ u) = 0 :=
      nameLength_boundary (boundary_cons (by rcases ha with rfl | rfl <;> rfl))
    have hsigns : beginsWith "\\" (a :: v ++ u) = false ∧ beginsWith "?" (a :: v ++ u) = false := by
      rcases ha with rfl | rfl <;> exact ⟨rfl, rfl⟩
    simp only [if_true, hav, List.cons_append, List.nil_append] at hgap hname hsigns ⊢
    simp [joinsTypes, hgap, hname, hsigns]
  | false =>
    obtain ⟨a, v, hav, rfl | rfl⟩ := p.spreadBytes_cons <;> simp only [hav] <;> rfl

theorem begins (p : ParamText) (hp : p.Sound) (u : Bytes) : BeginsToken (p.bytes ++ u) := by
  have htype := hp.type
  unfold bytes
  cases hd : p.type with
  | some t =>
    rw [hd] at htype
    simpa using (htype t rfl).begins (32 :: p.behindType ++ u)
  | none => exact p.begins_behindType u

theorem modest (p : ParamText) (hp : p.Sound) (u : Bytes) :
    isVisibility (wordAt (p.bytes ++ u)) = false := by
  have htype := hp.type
  unfold bytes
  cases hd : p.type with
  | some t =>
    rw [hd] at htype
    simpa using (htype t rfl).modest (32 :: p.behindType ++ u) (boundary_cons rfl)
  | none =>
    obtain ⟨a, v, hav, ha⟩ := p.behindType_cons
    have hword : wordAt (a :: v ++ u) = "" :=
      wordAt_boundary (boundary_cons (by rcases ha with rfl | rfl | rfl <;> rfl))
    simp only [hav, hword]
    rfl

end ParamText

/-- A node of a parameter of a given name. -/
structure Node.IsParam (x : Node) (source : Bytes) (name : String) : Prop where
  bare : x.IsBare
  param : ∀ scope, ∃ p, param? source scope x = some p ∧ p.name = name

/-- What may stand in front of the name of a parameter. -/
structure Node.IsFront (x : Node) : Prop where
  bare : x.IsBare
  noName : (x.kind == .dollarName || x.kind == .byReference) = false

theorem Node.IsTypeNode.isFront {x : Node} (h : x.IsTypeNode) : x.IsFront := by
  refine ⟨h.bare, ?_⟩
  have hk := h.kind
  cases hx : x.kind <;> rw [hx] at hk <;> first | rfl | cases hk

theorem isParam_of {x d : Node} {front rest : List Node} {name : String}
    (hk : x.kind = .simpleParameter ∨ x.kind = .variadicParameter)
    (hx : x.children = front ++ d :: rest) (hfront : ∀ y ∈ front, y.IsFront)
    (hd : d.IsLeaf source .dollarName (36 :: Utf8.bytesOf name))
    (hname : variableName ("$" ++ name) = name) (hrest : ∀ y ∈ rest, y.IsBare) :
    x.IsParam source name := by
  constructor
  · refine isBare_of (by rcases hk with hk | hk <;> rw [hk] <;> rfl) ?_
    rw [hx]
    intro y hy
    rcases List.mem_append.1 hy with hy | hy
    · exact (hfront y hy).bare
    rcases List.mem_cons.1 hy with rfl | hy
    · exact hd.isBare rfl
    · exact hrest y hy
  · intro scope
    have hfind : x.children.find? (fun c => c.kind == .dollarName || c.kind == .byReference) =
        some d := by
      rw [hx, List.find?_append, List.find?_eq_none.2 fun y hy => by simpa using (hfront y hy).noName]
      simp [hd.kind]
    have htext : d.text source = "$" ++ name :=
      Node.text_of_bytes (by rw [hd.bytes, Utf8.bytesOf_append]; rfl)
    have hkinds : [Kind.simpleParameter, .variadicParameter, .promotedParameter].contains x.kind =
        true := by
      rcases hk with hk | hk <;> rw [hk] <;> rfl
    unfold param?
    rw [if_pos hkinds, hfind]
    exact ⟨_, rfl, (congrArg variableName htext).trans hname⟩

/-- What follows the type and the reference of a parameter. -/
def namedParameter (grammar : Grammar) (start : Nat) (front : List Node) : Reader Node := do
  if ← nextIs "..." then
    symbol "..."
    let name ← dollarName
    nodeFrom .variadicParameter start (front ++ [name])
  else
    let name ← dollarName
    let default ← defaultValue grammar
    nodeFrom .simpleParameter start (front ++ [name] ++ default)

/-- What follows the type of a parameter. -/
def typedParameter (grammar : Grammar) (start : Nat) (front : List Node) : Reader Node := do
  let reference ← maybeNode (leaf .referenceModifier (symbol "&"))
  namedParameter grammar start (front ++ reference)

theorem decides_namedParameter {p : ParamText} (hp : p.Sound)
    (hd : ∀ t ∈ p.default, (IsDefaultText t ∨ IsBrokenDefault t) ∧ t.length ≤ n)
    {front : List Node} (hfront : ∀ y ∈ front, y.IsFront) (hg : IsGap g) (start : Nat) :
    Decides source false (namedParameter (Grammar.upTo long (n + 1)) start front)
      (g ++ p.spreadBytes) EndsEntry (fun x => x.IsParam source p.name)
      (∀ t ∈ p.default, IsDefaultText t) := by
  unfold namedParameter
  refine Decides.look (a := p.variadic) (fun c u hr _ => ?_) ?_
  · have hnext : Next c.rest (p.spreadBytes ++ u) := by
      rw [hr, List.append_assoc]
      exact next_append hg (p.begins_spreadBytes u)
    rw [hnext.run_nextIs]
    unfold ParamText.spreadBytes
    cases p.variadic <;> rfl
  cases hv : p.variadic with
  | true =>
    have hbytes : g ++ p.spreadBytes = g ++ [46, 46, 46] ++ ([] ++ 36 :: Utf8.bytesOf p.name) := by
      simp [ParamText.spreadBytes, ParamText.nameBytes, hv, hp.alone hv, defaultBytes]
    have hdots : Reads source false (symbol "...") (g ++ [46, 46, 46]) anyRest fun _ => True :=
      reads_symbol hg rfl (fun _ => rfl) fun _ _ => beginsToken_solid rfl
    rw [hbytes]
    refine Reads.decides ?_ (by simp [hp.alone hv])
    refine hdots.bind (fun _ _ => ?_) fun _ _ => trivial
    refine Reads.finish ((reads_dollarName .nil hp.name).mono (fun u hu => ?_) fun _ hx => hx) ?_
    · simpa [defaultBytes] using boundary_defaultBytes (d := none) hu
    intro d hname
    refine (reads_nodeFrom .variadicParameter start _).mono (fun _ hu => hu) fun x hx => ?_
    exact isParam_of (.inr hx.1) hx.2 hfront hname hp.trimmed (by simp)
  | false =>
    have hbytes : g ++ p.spreadBytes =
        (g ++ 36 :: Utf8.bytesOf p.name) ++ defaultBytes p.default := by
      simp [ParamText.spreadBytes, ParamText.nameBytes, hv]
    rw [hbytes]
    refine (reads_dollarName hg hp.name).thenDecides (fun d hname => ?_) fun u hu =>
      boundary_defaultBytes hu
    refine Decides.finish (decides_defaultValue hd) fun rest hrest => ?_
    refine (reads_nodeFrom .simpleParameter start _).mono (fun _ hu => hu) fun x hx => ?_
    exact isParam_of (.inl hx.1) (by simp [hx.2]) hfront hname hp.trimmed hrest

theorem decides_typedParameter {p : ParamText} (hp : p.Sound)
    (hd : ∀ t ∈ p.default, (IsDefaultText t ∨ IsBrokenDefault t) ∧ t.length ≤ n)
    {front : List Node} (hfront : ∀ y ∈ front, y.IsFront) (hg : IsGap g) (start : Nat) :
    Decides source false (typedParameter (Grammar.upTo long (n + 1)) start front)
      (g ++ p.behindType) EndsEntry (fun x => x.IsParam source p.name)
      (∀ t ∈ p.default, IsDefaultText t) := by
  unfold typedParameter ParamText.behindType
  cases p.byRef with
  | true =>
    have hsign : Reads source false (leaf .referenceModifier (symbol "&")) (g ++ [38]) anyRest
        fun x => x.IsLeaf source .referenceModifier [38] :=
      reads_leaf hg (reads_sign (g := []) .nil rfl rfl) fun _ _ => beginsToken_solid rfl
    have hbytes : g ++ ((if true = true then [38] else []) ++ p.spreadBytes) =
        (g ++ [38]) ++ ([] ++ p.spreadBytes) := by simp
    rw [hbytes]
    refine hsign.maybeNode.thenDecides ?_ fun _ _ => trivial
    rintro _ ⟨x, rfl, hx⟩
    refine decides_namedParameter hp hd (fun y hy => ?_) .nil start
    rcases List.mem_append.1 hy with hy | hy
    · exact hfront y hy
    · obtain rfl : y = x := by simpa using hy
      exact ⟨hx.isBare rfl, by rw [hx.kind]; rfl⟩
  | false =>
    refine Reads.thenDecides (t := [])
      (reads_maybeNode_none ?_ : Reads _ _ _ _ (fun u => ∃ v, u = g ++ (p.spreadBytes ++ v)) _) ?_
      fun u _ => ⟨u, by simp⟩
    · rintro u ⟨v, rfl⟩
      have htoken := p.begins_spreadBytes v
      have hsign : beginsWith "&" (p.spreadBytes ++ v) = false := by
        obtain ⟨a, v, hav, rfl | rfl⟩ := p.spreadBytes_cons <;> rw [hav] <;> rfl
      exact stops_nodeOf (next_append hg htoken) (stops_symbol (next_token htoken) hsign).bind
    · rintro _ rfl
      simpa using decides_namedParameter hp hd hfront hg start

theorem decides_parameter {p : ParamText} (hp : p.Sound)
    (hd : ∀ t ∈ p.default, (IsDefaultText t ∨ IsBrokenDefault t) ∧ t.length ≤ n) (hg : IsGap g)
    (list : Reader Node) :
    Decides source false (parameter (Grammar.upTo long (n + 1)) list) (g ++ p.bytes) EndsEntry
      (fun x => x.IsParam source p.name) (∀ t ∈ p.default, IsDefaultText t) := by
  have hbegins := p.begins hp
  unfold parameter
  refine (reads_openGap hg).thenDecides (fun _ _ => Decides.position fun start => ?_)
    fun u _ => hbegins u
  refine Reads.thenDecides (t := [])
    (reads_maybeNode_none ?_ : Reads _ _ _ _ (fun u => ∃ v, u = p.bytes ++ v) _) ?_
    fun u _ => ⟨u, rfl⟩
  · rintro u ⟨v, rfl⟩
    exact stops_attributes (next_token (hbegins v))
  rintro _ rfl
  refine Decides.peek (p := (isVisibility · = false)) (fun c u hr _ => ?_) fun word hword => ?_
  · have hnext : Next c.rest (p.bytes ++ u) := by rw [hr]; exact next_token (hbegins u)
    exact ⟨_, hnext.run_nextWord, p.modest hp u⟩
  rw [if_neg (by simp [hword])]
  show Decides source false (do
    let type ← maybeNode typeHint
    typedParameter (Grammar.upTo long (n + 1)) start ([] ++ type)) p.bytes EndsEntry _ _
  have htype := hp.type
  unfold ParamText.bytes
  cases hty : p.type with
  | some t =>
    rw [hty] at htype
    have ht := (htype t rfl).reads source false [] .nil
    refine ht.maybeNode.thenDecides ?_ fun u _ => p.endsType_behindType u
    rintro _ ⟨x, rfl, hx⟩
    exact decides_typedParameter hp hd (by simpa using hx.isFront) (.space rfl .nil) start
  | none =>
    refine Reads.thenDecides (t := [])
      (reads_maybeNode_none ?_ : Reads _ _ _ _ (fun u => ∃ v, u = p.behindType ++ v) _) ?_
      fun u _ => ⟨u, rfl⟩
    · rintro u ⟨v, rfl⟩
      obtain ⟨a, r, har, ha⟩ := p.behindType_cons
      rw [har]
      exact stops_typeHint (by rcases ha with rfl | rfl | rfl <;> simp)
        (next_token (by rw [← har]; exact p.begins_behindType v))
    · rintro _ rfl
      exact decides_typedParameter (g := []) hp hd (by simp) .nil start

theorem stops_parameter (list : Reader Node) (u : Bytes) :
    Stops source false (parameter grammar list) (41 :: u) := by
  have hnext : Next (41 :: u) (41 :: u) := next_token (beginsToken_solid rfl)
  have hdots : beginsWith "..." (41 :: u) = false := rfl
  have hname : Stops source false dollarName (41 :: u) :=
    stops_nodeOf hnext (stops_symbol hnext rfl).bind.bind
  have hword : wordAt (41 :: u) = "" := wordAt_boundary (boundary_cons rfl)
  unfold parameter
  refine stops_openGap hnext (Stops.position fun start => ?_)
  refine (stops_attributes hnext).behindNone ?_
  refine Stops.look (a := "") (fun c _ hr => ?_) ?_
  · rw [Next.run_nextWord (by rw [hr]; exact hnext), hword]
  refine (stops_typeHint (by simp) hnext).behindNone ?_
  refine Stops.behindNone (stops_nodeOf hnext (stops_symbol hnext rfl).bind) ?_
  refine Stops.look (a := false) (fun c _ hr => ?_) hname.bind
  rw [Next.run_nextIs (by rw [hr]; exact hnext), hdots]

/-- Parameters, each with the name that it is read with. -/
def parameterRow (source : Bytes) (ps : List ParamText) : Row Node :=
  ps.map fun p => (p.bytes, fun x => x.IsParam source p.name)

/-- How a parameter begins: neither with a comma nor with a closing parenthesis. -/
theorem ParamText.opens {p : ParamText} (hp : p.Sound) (u : Bytes) :
    ∃ w, Next (p.bytes ++ u) w ∧ beginsWith "," w = false ∧ beginsWith ")" w = false := by
  have hopens : Opens (p.bytes ++ u) := by
    refine Opens.append ?_ u
    have htype := hp.type
    unfold ParamText.bytes
    cases hd : p.type with
    | some t =>
      rw [hd] at htype
      exact (htype t rfl).opens.append _
    | none =>
      obtain ⟨a, v, hav, rfl | rfl | rfl⟩ := p.behindType_cons <;>
        exact ⟨_, v, hav, by decide, by decide⟩
  obtain ⟨a, v, hav, h44, h41⟩ := hopens
  refine ⟨_, next_token (p.begins hp u), ?_⟩
  rw [hav]
  simp [beginsWith, beginsWith.go, ascii, Ne.symm h44, Ne.symm h41]

/-- Parameters in parentheses. -/
theorem decides_parameters {ps : List ParamText} (hps : ∀ p ∈ ps, p.Sound)
    (hd : ∀ p ∈ ps, ∀ t ∈ p.default, (IsDefaultText t ∨ IsBrokenDefault t) ∧ t.length ≤ n) :
    Decides source b (parameters (Grammar.upTo long (n + 1)))
      (40 :: (listBytes (parameterRow source ps) ++ [41])) anyRest
      (fun x => x.kind = .parameters ∧ Gives (parameterRow source ps) x.children)
      (∀ p ∈ ps, ∀ t ∈ p.default, IsDefaultText t) := by
  unfold parameters
  refine Decides.peek (p := fun k => ∃ m, k = m + 1) (fun c u _ _ => ⟨_, run_turns, _, rfl⟩) ?_
  rintro _ ⟨depth, rfl⟩
  have hparam : ∀ p ∈ ps, ∀ g, IsGap g → Decides source false
      (parameter (Grammar.upTo long (n + 1)) (parametersWithin (Grammar.upTo long (n + 1)) depth))
      (g ++ p.bytes) EndsEntry (fun x => x.IsParam source p.name) (∀ t ∈ p.default, IsDefaultText t) :=
    fun p hp g hg => decides_parameter (hps p hp) (hd p hp) hg _
  have hlist := decides_between_openList (b := b) (g := []) (parameterRow source ps)
    (∀ p ∈ ps, ∀ t ∈ p.default, IsDefaultText t) .nil
    (List.forall_mem_map.2 fun p hp => by
      by_cases hgood : ∀ t ∈ p.default, IsDefaultText t
      · exact .inl fun g hg => (hparam p hp g hg).reads hgood
      · exact .inr fun g hg => (hparam p hp g hg).breaks hgood)
    (List.forall_mem_map.2 fun p hp u => p.opens (hps p hp) u) (stops_parameter _)
    (fun hall => List.forall_mem_map.2 fun p hp g hg => (hparam p hp g hg).reads (hall p hp))
    fun hnot => by
      rw [not_forall] at hnot
      obtain ⟨p, hp⟩ := hnot
      rw [Classical.not_imp] at hp
      exact ⟨_, List.mem_map.2 ⟨p, hp.1, rfl⟩, fun g hg => (hparam p hp.1 g hg).breaks hp.2⟩
  unfold parametersWithin
  refine Reads.thenDecides (t := []) (reads_gap .nil : Reads _ _ _ _ BeginsToken _) (fun _ _ => ?_)
    fun u _ => beginsToken_solid rfl
  refine (decides_nodeOf .nil hlist fun u _ => beginsToken_solid rfl).mono (fun _ hu => hu) ?_
  exact fun x hx => ⟨hx.1, hx.2.2⟩

/-! ## Return types -/

/-- A line break and the indentation of the next line. -/
def lineGap (n : Nat) : Bytes := 10 :: List.replicate n 32

theorem isGap_lineGap (n : Nat) : IsGap (lineGap n) := by
  refine isGap_spaces ?_
  simp [lineGap, isSpace]

/-- The body of a method follows on the next line. -/
def EndsHead (u : Bytes) : Prop := ∃ w, u = lineGap 8 ++ 123 :: w

theorem EndsHead.next (h : EndsHead u) : Boundary u ∧ ∃ w, Next u (123 :: w) := by
  obtain ⟨w, rfl⟩ := h
  exact ⟨boundary_cons rfl, w, next_append (isGap_lineGap 8) (beginsToken_solid rfl)⟩

theorem EndsHead.endsType (h : EndsHead u) : EndsType b u := by
  obtain ⟨hbound, w, hnext⟩ := h.next
  exact ⟨hnext.endsPath hbound rfl, _, hnext, rfl, rfl⟩

/-- A text that is the type of what a method returns. The word for no return at all stands alone. -/
def IsReturnText (t : Bytes) : Prop :=
  t = Utf8.bytesOf "never" ∨ IsTypeText t ∧ exactWordAt t ≠ "never"

/-- A type that goes on behind the word for no return at all. -/
def IsBrokenReturn (t : Bytes) : Prop :=
  ∃ a v, t = Utf8.bytesOf "never" ++ a :: v ∧ (a = 124 ∨ a = 38)

theorem IsBrokenReturn.not_isReturnText (h : IsBrokenReturn t) : ¬ IsReturnText t := by
  obtain ⟨a, v, rfl, ha⟩ := h
  have hbound : Boundary (a :: v) := boundary_cons (by rcases ha with rfl | rfl <;> rfl)
  have hword : exactWordAt (Utf8.bytesOf "never" ++ a :: v) = "never" := by
    rw [exactWordAt_front hbound]
    decide
  rintro (heq | ⟨-, hother⟩)
  · have hlength := congrArg List.length heq
    simp at hlength
  · exact hother hword

/-- A type behind a colon, read by what the type begins with. -/
theorem reads_colon {ok : Bytes → Prop} (hg : IsGap g) (hu : ∀ u, ok u → BeginsToken (t ++ u))
    {f : Bytes → Reader (List Node)} {q : List Node → Prop}
    (h : ∀ w, (∃ u, ok u ∧ w = t ++ u) → Reads source b (f w) (g ++ t) ok q) :
    Reads source b (do
      if ← thenIs ":" then
        symbol ":"
        f (← ahead)
      else return []) (58 :: (g ++ t)) ok q := by
  refine Reads.look (a := true) (fun c u hr _ => ?_) ?_
  · have hnext : Next c.rest (58 :: (g ++ t ++ u)) := by
      rw [hr]
      exact next_token (beginsToken_solid rfl)
    rw [hnext.run_thenIs]
    rfl
  refine Reads.bind (t := [58]) (reads_sign .nil rfl rfl) (fun _ _ => ?_) fun _ _ => trivial
  refine Reads.peek (p := fun w => ∃ u, ok u ∧ w = t ++ u) (fun c u hr hok => ?_) h
  have hrest : c.rest = g ++ (t ++ u) := hr.trans (List.append_assoc g t u)
  have hnext : Next c.rest (t ++ u) := by rw [hrest]; exact next_append hg (hu u hok)
  exact ⟨_, hnext.run_ahead, u, hok, rfl⟩

/-- The word for no return at all is read without what goes on behind it. -/
theorem reads_never (hg : IsGap g) :
    Reads source b returnType (58 :: (g ++ Utf8.bytesOf "never")) Boundary
      fun ns => ∃ x, ns = [x] ∧ x.IsNameType source .primitiveType (Utf8.bytesOf "never") := by
  have hname : IsName (Utf8.bytesOf "never") := by decide
  refine reads_colon hg (fun u hu => beginsToken_isName hname hu) fun w hw => ?_
  obtain ⟨u, hu, rfl⟩ := hw
  have hword : exactWordAt (Utf8.bytesOf "never" ++ u) = "never" := by
    rw [exactWordAt_front hu]
    decide
  rw [if_pos (by simp [hword])]
  exact (reads_identifier hg hname).yields fun x hx => ⟨_, rfl, ⟨rfl, rfl⟩, rfl, hx.bytes⟩

/-- Any other type is read as types are. -/
theorem reads_returnHint {p : Bytes → Node → Prop} (hg : IsGap g) (ht : IsHintText p t)
    (hother : exactWordAt t ≠ "never") :
    Reads source b returnType (58 :: (g ++ t)) (EndsType b)
      fun ns => ∃ x, ns = [x] ∧ p source x := by
  refine reads_colon hg (fun u _ => ht.begins u) fun w hw => ?_
  obtain ⟨u, hu, rfl⟩ := hw
  have hword : exactWordAt (t ++ u) ≠ "never" := by rwa [exactWordAt_front hu.1.1]
  rw [if_neg (by simpa using hword)]
  exact (ht.reads source b g hg).yields fun x hx => ⟨x, rfl, hx⟩

theorem reads_returnType (ht : IsReturnText t) :
    Reads source b returnType (58 :: 32 :: t) EndsHead
      fun ns => ∃ x, ns = [x] ∧ x.IsTypeNode := by
  have hblank : IsGap [32] := .space rfl .nil
  rcases ht with rfl | ⟨ht, hother⟩
  · refine (reads_never hblank).mono (fun u hu => hu.next.1) fun ns hns => ?_
    obtain ⟨x, rfl, hx⟩ := hns
    exact ⟨x, rfl, hx.type⟩
  · exact (reads_returnHint hblank ht.isHintText hother).mono (fun u hu => hu.endsType) fun _ hx => hx

/-! ## Modifiers -/

theorem reads_modifier {word : String} {kind : Kind} (hg : IsGap g) (hs : IsName s)
    (hw : String.ofList (folded s) = word) (hk : modifierKind? word = some kind) :
    Reads source b modifier (g ++ s) (fun u => ∃ v, u = 32 :: v)
      fun x => x.IsLeaf source kind s := by
  have hbegins : ∀ u, (∃ v, u = 32 :: v) → BeginsToken (s ++ u) := by
    rintro u ⟨v, rfl⟩
    exact beginsToken_isName hs (boundary_cons rfl)
  have hword : Reads source b (keyword word) s Boundary fun _ => True :=
    reads_keyword (g := []) .nil hs hw
  have hoperation : Reads source b (if kind == .visibilityModifier then visibilityOperation else
      pure PUnit.unit) [] (fun u => ∃ v, u = 32 :: v) fun _ => True := by
    split
    · unfold visibilityOperation
      refine Reads.peek (p := (beginsWith "(" · = false)) (fun c u hr hu => ?_) fun w hw => ?_
      · obtain ⟨v, rfl⟩ := hu
        exact ⟨_, run_remaining, by rw [hr]; rfl⟩
      · rw [if_neg (by simp [hw])]
        exact reads_pure trivial
    · exact reads_pure trivial
  unfold modifier
  refine Reads.look (a := word) (fun c u hr hu => ?_) ?_
  · have hnext : Next c.rest (s ++ u) := by
      rw [hr, List.append_assoc]
      exact next_append hg (hbegins u hu)
    obtain ⟨v, rfl⟩ := hu
    rw [hnext.run_nextWord, wordAt_append hs (boundary_cons rfl), hw]
  simp only [hk]
  refine reads_leaf hg ?_ hbegins
  exact (hword.mono (fun u hu => by obtain ⟨v, rfl⟩ := hu; exact boundary_cons rfl)
    fun _ _ => trivial).finish fun _ _ => hoperation

theorem stops_modifier (hu : Next u w) (hw : modifierKind? (wordAt w) = none) :
    Stops source b modifier u := by
  unfold modifier
  refine Stops.look (a := wordAt w) (fun c _ hr => Next.run_nextWord (by rw [hr]; exact hu)) ?_
  rw [hw]
  exact fun _ _ _ => rfl

theorem next_word {word : String} (hg : IsGap g) (hs : IsName s)
    (hw : String.ofList (folded s) = word) (hu : Boundary u) :
    Next (g ++ (s ++ u)) (s ++ u) ∧ wordAt (s ++ u) = word :=
  ⟨next_append hg (beginsToken_isName hs hu), by rw [wordAt_append hs hu, hw]⟩

/-- Two modifiers, in front of a word that is none. -/
theorem reads_modifiers {s₁ s₂ s₃ : Bytes} {k₁ k₂ : Kind} (h₁ : IsName s₁) (h₂ : IsName s₂)
    (h₃ : IsName s₃) (hk₁ : modifierKind? (String.ofList (folded s₁)) = some k₁)
    (hk₂ : modifierKind? (String.ofList (folded s₂)) = some k₂)
    (hk₃ : modifierKind? (String.ofList (folded s₃)) = none) :
    Reads source b (many modifier) (s₁ ++ 32 :: s₂) (fun u => ∃ v, u = 32 :: (s₃ ++ 32 :: v))
      fun ns => ∃ x y, ns = [x, y] ∧ x.IsLeaf source k₁ s₁ ∧ y.IsLeaf source k₂ s₂ := by
  have hblank : IsGap [32] := .space rfl .nil
  let items : Row Node :=
    [(s₁, fun x => x.IsLeaf source k₁ s₁), (32 :: s₂, fun x => x.IsLeaf source k₂ s₂)]
  have hitems : ∀ i ∈ items, i.1 ≠ [] ∧
      Reads source b modifier i.1 (fun u => ∃ v, u = 32 :: v) i.2 := by
    simp only [items, List.forall_mem_cons]
    exact ⟨⟨h₁.1, reads_modifier (g := []) .nil h₁ rfl hk₁⟩,
      ⟨by simp, reads_modifier hblank h₂ rfl hk₂⟩, by simp⟩
  have hrow := reads_many (fun i hi => (hitems i hi).1) (fun i hi => (hitems i hi).2)
    (by simp [items])
  have hbytes : rowBytes items = s₁ ++ 32 :: s₂ := by simp [rowBytes, items]
  rw [← hbytes]
  refine hrow.mono ?_ ?_
  · rintro u ⟨v, rfl⟩
    have hnext := next_word hblank h₃ rfl (boundary_cons (b := 32) (u := v) rfl)
    exact ⟨⟨_, rfl⟩, stops_modifier hnext.1 (by rw [hnext.2]; exact hk₃)⟩
  · intro ns hns
    have hpair : Gives [_, _] ns := hns
    obtain _ | ⟨hx, _ | ⟨hy, _ | _⟩⟩ := hpair
    exact ⟨_, _, rfl, hx, hy⟩

/-! ## Methods -/

/-- A method of a stub as it is written. -/
structure MethodText where
  /-- The inside of the comment in front of it. -/
  doc : Bytes
  name : String
  params : List ParamText
  returnType : Bytes
  /-- The inside of the comment in its body. -/
  note : Bytes
  /-- Whether the value of the call is returned. -/
  returns : Bool

/-- A comment between two line breaks. -/
def commentGap (indent : Nat) (t : Bytes) : Bytes := 47 :: 42 :: (t ++ 42 :: 47 :: lineGap indent)

theorem isGap_commentGap {indent : Nat} (ht : Commentable t) : IsGap (commentGap indent t) :=
  .comment (isCommented_of_ne_slash ht) (isGap_lineGap indent)

/-- Parameters with commas between them. -/
def parameterBytes (ps : List ParamText) : Bytes := listBytes (parameterRow [] ps)

theorem listBytes_parameterRow (ps : List ParamText) :
    listBytes (parameterRow source ps) = parameterBytes ps := by
  cases ps with
  | nil => rfl
  | cons p ps => simp [parameterBytes, parameterRow, listBytes, List.flatMap_map]

namespace MethodText

/-- The statement of the body. -/
def statementBytes (m : MethodText) : Bytes :=
  lineGap 12 ++ (commentGap 12 m.note ++ callBytes m.returns (Utf8.bytesOf "instance")
    (Utf8.bytesOf m.name) (m.params.map fun p => (p.variadic, Utf8.bytesOf p.name)))

def bodyBytes (m : MethodText) : Bytes :=
  lineGap 8 ++ 123 :: (m.statementBytes ++ (lineGap 8 ++ [125]))

/-- The name and all that follows it. -/
def nameBytes (m : MethodText) : Bytes :=
  Utf8.bytesOf m.name ++ (40 :: (parameterBytes m.params ++ [41]) ++
    (58 :: 32 :: m.returnType ++ m.bodyBytes))

/-- The word `function` and all that follows it. -/
def partsBytes (m : MethodText) : Bytes := 32 :: (Utf8.bytesOf "function" ++ 32 :: m.nameBytes)

def bytes (m : MethodText) : Bytes :=
  List.replicate 8 32 ++ (commentGap 8 m.doc ++
    (Utf8.bytesOf "public" ++ 32 :: Utf8.bytesOf "static" ++ m.partsBytes))

/-- A method all of which but its defaults and its return type is well written. -/
structure Sound (m : MethodText) : Prop where
  doc : Commentable m.doc
  name : IsName (Utf8.bytesOf m.name)
  params : ∀ p ∈ m.params, p.Sound
  returnType : IsReturnText m.returnType ∨ IsBrokenReturn m.returnType
  note : Commentable m.note

/-- What a stub's method is to be read as. -/
def outline (m : MethodText) : MethodOutline := ⟨m.name, .everyone, true, m.params.map (·.name)⟩

/-- The defaults of a method. -/
def defaults (m : MethodText) : List Bytes := m.params.filterMap (·.default)

/-- A method whose defaults and return type can be read. -/
structure Readable (m : MethodText) : Prop where
  defaults : ∀ t ∈ m.defaults, IsDefaultText t
  returnType : IsReturnText m.returnType

theorem mem_defaults {m : MethodText} :
    t ∈ m.defaults ↔ ∃ p ∈ m.params, p.default = some t := List.mem_filterMap

end MethodText

theorem reads_body {m : MethodText} (hm : m.Sound) :
    Reads source b (block (Grammar.upTo long (n + 3))) m.bodyBytes anyRest
      fun x => x.kind = .block ∧ x.IsBare := by
  have hgap : IsGap (lineGap 12 ++ commentGap 12 m.note) :=
    (isGap_lineGap 12).append (isGap_commentGap hm.note)
  have hinstance : IsName (Utf8.bytesOf "instance") := by decide +kernel
  have hcall : Reads source false (statementWith (Grammar.upTo long (n + 2))) m.statementBytes
      anyRest Node.IsBare := by
    rw [MethodText.statementBytes, ← List.append_assoc]
    exact reads_callStatement hgap hinstance hm.name
      (List.forall_mem_map.2 fun p hp => (hm.params p hp).name)
  let items : Row Node := [(m.statementBytes, Node.IsBare)]
  have hblock := reads_block (b := b) items (isGap_lineGap 8) (isGap_lineGap 8)
    (List.forall_mem_singleton.2 ⟨by simp [MethodText.statementBytes, lineGap], hcall⟩)
  have hbytes : rowBytes items = m.statementBytes := by simp [rowBytes, items]
  rw [hbytes] at hblock
  refine hblock.mono (fun _ hu => hu) fun x hx => ⟨hx.1, isBare_of (by rw [hx.1]; rfl) ?_⟩
  exact hx.2.all (by simp [items])

/-- A node of a method with a given outline. -/
structure Node.IsMethod (x : Node) (source : Bytes) (outline : MethodOutline) : Prop where
  kind : x.kind = .method
  bare : x.IsBare
  method : ∀ scope kind, ∃ m, method? source scope kind x = some m ∧ m.outline = outline

/-- Parameters are read with their names. -/
theorem params_parameterRow {ps : List ParamText} {xs : List Node} (scope : ClassScope)
    (h : Gives (parameterRow source ps) xs) :
    (xs.filterMap (param? source scope)).map (·.name) = ps.map (·.name) := by
  induction ps generalizing xs with
  | nil =>
    obtain _ | _ := h
    rfl
  | cons p ps ih =>
    obtain _ | ⟨hx, hxs⟩ := h
    obtain ⟨q, hq, hname⟩ := hx.param scope
    rw [List.filterMap_cons, hq]
    simp only [List.map_cons, ih hxs, hname]

theorem isMethod_of {x open' fixed name ps type body : Node} {m : MethodText}
    (hk : x.kind = .method) (hx : x.children = [open', fixed, name, ps, type, body])
    (hopen : open'.IsLeaf source .visibilityModifier (Utf8.bytesOf "public"))
    (hfixed : fixed.IsLeaf source .staticModifier (Utf8.bytesOf "static"))
    (hname : name.IsLeaf source .name (Utf8.bytesOf m.name))
    (hps : ps.kind = .parameters ∧ Gives (parameterRow source m.params) ps.children)
    (htype : type.IsTypeNode) (hbody : body.kind = .block ∧ body.IsBare) :
    x.IsMethod source m.outline := by
  have hparams : ps.IsBare := isBare_of (by rw [hps.1]; rfl)
    (hps.2.all (List.forall_mem_map.2 fun p _ y hy => hy.bare))
  refine ⟨hk, isBare_of (by rw [hk]; rfl) ?_, fun scope kind => ?_⟩
  · rw [hx]
    simpa using ⟨hopen.isBare rfl, hfixed.isBare rfl, hname.isBare rfl, hparams, htype.bare, hbody.2⟩
  · have hchild : x.child? .name = some name ∧ x.child? .staticModifier = some fixed ∧
        x.child? .parameters = some ps := by
      simp [Node.child?, hx, hopen.kind, hfixed.kind, hname.kind, hps.1]
    have hvisible : visibility source x = .everyone := by
      have hfilter : x.children.filter (fun c => c.kind == .visibilityModifier) = [open'] := by
        have hplain : (type.kind == Kind.visibilityModifier) = false := by
          have ht := htype.kind
          cases htk : type.kind <;> rw [htk] at ht <;> first | rfl | cases ht
        simp [hx, hopen.kind, hfixed.kind, hname.kind, hps.1, hbody.1, hplain]
      have htext : open'.text source = "public" := Node.text_of_bytes hopen.bytes
      have hword : Visibility.ofKeyword "public" = .everyone := by decide
      unfold visibility
      rw [hfilter]
      simp only [List.getLast?_singleton, htext, hword]
    unfold method?
    rw [hchild.1]
    refine ⟨_, rfl, ?_⟩
    have hparams : ((x.child? .parameters).map fun ps =>
        ps.children.filterMap (param? source scope)).getD [] =
          ps.children.filterMap (param? source scope) := by
      rw [hchild.2.2]
      rfl
    simp [Method.outline, MethodText.outline, hvisible, hchild.2.1, hparams,
      params_parameterRow scope hps.2, Node.text_of_bytes hname.bytes]

theorem decides_methodParts {m : MethodText} (hm : m.Sound)
    (hd : ∀ t ∈ m.defaults, (IsDefaultText t ∨ IsBrokenDefault t) ∧ t.length ≤ n) :
    Decides source b (methodParts (Grammar.upTo long (n + 3))) m.partsBytes anyRest
      (fun ns => ∃ name ps type body, ns = [name, ps, type, body] ∧
        name.IsLeaf source .name (Utf8.bytesOf m.name) ∧
        (ps.kind = .parameters ∧ Gives (parameterRow source m.params) ps.children) ∧
        type.IsTypeNode ∧ body.kind = .block ∧ body.IsBare) m.Readable := by
  have hblank : IsGap [32] := .space rfl .nil
  have hfunction : IsName (Utf8.bytesOf "function") := by decide +kernel
  have hword : String.ofList (folded (Utf8.bytesOf "function")) = "function" := by decide +kernel
  have hfirst : ∀ u, ∃ v, m.nameBytes ++ u = Utf8.bytesOf m.name ++ 40 :: v := fun u => ⟨_, by
    rw [MethodText.nameBytes, List.append_assoc]
    rfl⟩
  have hname : ∀ u, BeginsToken (m.nameBytes ++ u) := fun u => by
    obtain ⟨v, hv⟩ := hfirst u
    rw [hv]
    exact beginsToken_isName hm.name (boundary_cons rfl)
  have hand : ∀ u, beginsWith "&" (m.nameBytes ++ u) = false := fun u => by
    obtain ⟨v, hv⟩ := hfirst u
    rw [hv]
    refine beginsWith_name ?_ rfl rfl
    rw [nameLength_append hm.name (boundary_cons rfl)]
    simpa using hm.name.1
  have hps : Decides source b (parameters (Grammar.upTo long (n + 3)))
      (40 :: (parameterBytes m.params ++ [41])) anyRest
      (fun x => x.kind = .parameters ∧ Gives (parameterRow source m.params) x.children)
      (∀ t ∈ m.defaults, IsDefaultText t) := by
    have hlonger : ∀ p ∈ m.params, ∀ t ∈ p.default,
        (IsDefaultText t ∨ IsBrokenDefault t) ∧ t.length ≤ n + 2 := fun p hp t ht =>
      have h := hd t (MethodText.mem_defaults.2 ⟨p, hp, ht⟩)
      ⟨h.1, by omega⟩
    have h := @decides_parameters source b long _ _ hm.params hlonger
    rw [listBytes_parameterRow] at h
    refine h.congr ⟨fun hall t ht => ?_, fun hall p hp t ht => ?_⟩
    · obtain ⟨p, hp, hdefault⟩ := MethodText.mem_defaults.1 ht
      exact hall p hp t hdefault
    · exact hall t (MethodText.mem_defaults.2 ⟨p, hp, ht⟩)
  unfold methodParts MethodText.partsBytes
  refine Reads.thenDecides (t := [32] ++ Utf8.bytesOf "function") (reads_keyword hblank hfunction hword)
    (fun _ _ => ?_) fun u _ => boundary_cons rfl
  refine Reads.thenDecides (t := [])
    (reads_maybeNode_none ?_ : Reads _ _ _ _ (fun u => ∃ v, u = [32] ++ (m.nameBytes ++ v)) _) ?_
    fun u _ => ⟨u, by simp⟩
  · rintro u ⟨v, rfl⟩
    exact stops_nodeOf (next_append hblank (hname v))
      (stops_symbol (next_token (hname v)) (hand v)).bind
  rintro _ rfl
  refine Reads.thenDecides (t := [32] ++ Utf8.bytesOf m.name) (reads_identifier hblank hm.name)
    (fun name hleaf => ?_) fun u _ => boundary_cons rfl
  refine (hps.bind (fun ps hnode => ?_) fun _ _ => trivial).congr
    ⟨fun h => ⟨h.1, h.2⟩, fun h => ⟨h.1, h.2⟩⟩
  refine Decides.withTagEnds ?_
  have hhead : ∀ u, EndsHead (m.bodyBytes ++ u) := fun u => ⟨_, by
    rw [MethodText.bodyBytes, List.append_assoc, List.cons_append]⟩
  refine ⟨fun hgood => ?_, fun hbad u _ => ?_⟩
  · refine (reads_returnType hgood).bind ?_ fun u _ => hhead u
    rintro _ ⟨type, rfl, htype⟩
    refine Reads.look (a := true) (fun c u hr _ => ?_) ?_
    · obtain ⟨-, w, hnext⟩ := (hhead u).next
      rw [Next.run_thenIs (by rw [hr]; exact hnext)]
      rfl
    refine Reads.yields ((reads_body hm).map
      (q := fun ns => ∃ x, ns = [x] ∧ x.kind = .block ∧ x.IsBare) fun x hx => ⟨x, rfl, hx⟩) ?_
    rintro _ ⟨body, rfl, hbody⟩
    exact ⟨name, ps, type, body, rfl, hleaf, hnode, htype, hbody⟩
  · -- The word is taken for the whole type, and neither a body nor a semicolon follows it.
    obtain ⟨a, v, ht, ha⟩ := hm.returnType.resolve_left hbad
    have hsolid : BeginsToken (a :: (v ++ m.bodyBytes ++ u)) :=
      beginsToken_solid (by rcases ha with rfl | rfl <;> rfl)
    have hsigns : beginsWith "\x7b" (a :: (v ++ m.bodyBytes ++ u)) = false ∧
        beginsWith ";" (a :: (v ++ m.bodyBytes ++ u)) = false := by
      rcases ha with rfl | rfl <;> exact ⟨rfl, rfl⟩
    have htext : 58 :: 32 :: m.returnType ++ m.bodyBytes ++ u =
        (58 :: 32 :: Utf8.bytesOf "never") ++ (a :: (v ++ m.bodyBytes ++ u)) := by simp [ht]
    rw [htext]
    refine (reads_never (.space rfl .nil)).stops (boundary_cons (by rcases ha with rfl | rfl <;> rfl)) fun ns _ => ?_
    refine Stops.look (a := false) (fun c _ hr => ?_) ?_
    · rw [Next.run_thenIs (by rw [hr]; exact next_token hsolid), hsigns.1]
    exact (stops_semicolon (next_token hsolid) hsigns.2).bind

/-- The member of a class that begins with the modifiers of a stub's method. -/
theorem decides_method {m : MethodText} (hm : m.Sound)
    (hd : ∀ t ∈ m.defaults, (IsDefaultText t ∨ IsBrokenDefault t) ∧ t.length ≤ n)
    (hg : IsGap g) :
    Decides source b (member (Grammar.upTo long (n + 3)) false) (g ++ m.bytes) anyRest
      (fun x => x.IsMethod source m.outline) m.Readable := by
  have hblank : IsGap [32] := .space rfl .nil
  have hgap : IsGap (g ++ (List.replicate 8 32 ++ commentGap 8 m.doc)) :=
    hg.append ((isGap_spaces (by decide)).append (isGap_commentGap hm.doc))
  have hpublic : IsName (Utf8.bytesOf "public") := by decide +kernel
  have hopen : String.ofList (folded (Utf8.bytesOf "public")) = "public" := by decide +kernel
  have hfunction : IsName (Utf8.bytesOf "function") := by decide +kernel
  have hword : String.ofList (folded (Utf8.bytesOf "function")) = "function" := by decide +kernel
  have hmodifiers : Reads source b (many modifier)
      (Utf8.bytesOf "public" ++ 32 :: Utf8.bytesOf "static")
      (fun u => ∃ v, u = 32 :: (Utf8.bytesOf "function" ++ 32 :: v))
      fun ns => ∃ x y, ns = [x, y] ∧ x.IsLeaf source .visibilityModifier (Utf8.bytesOf "public") ∧
        y.IsLeaf source .staticModifier (Utf8.bytesOf "static") :=
    reads_modifiers hpublic (by decide +kernel) hfunction (by decide +kernel) (by decide +kernel)
      (by decide +kernel)
  have hbytes : g ++ m.bytes = (g ++ (List.replicate 8 32 ++ commentGap 8 m.doc)) ++
      ((Utf8.bytesOf "public" ++ 32 :: Utf8.bytesOf "static") ++ m.partsBytes) := by
    simp [MethodText.bytes]
  have hfront : ∀ u, Next ((Utf8.bytesOf "public" ++ 32 :: Utf8.bytesOf "static") ++ m.partsBytes ++ u)
      ((Utf8.bytesOf "public" ++ 32 :: Utf8.bytesOf "static") ++ m.partsBytes ++ u) ∧
      wordAt ((Utf8.bytesOf "public" ++ 32 :: Utf8.bytesOf "static") ++ m.partsBytes ++ u) =
        "public" := fun u => by
    have h := next_word (g := []) .nil hpublic hopen
      (boundary_cons (b := 32) (u := Utf8.bytesOf "static" ++ (m.partsBytes ++ u)) rfl)
    simpa using h
  unfold member
  rw [hbytes]
  refine (reads_openGap hgap).thenDecides (fun _ _ => Decides.position fun start => ?_)
    fun u _ => (hfront u).1.token
  refine Decides.look (a := "public") (fun c u hr _ => ?_) ?_
  · rw [Next.run_nextWord (by rw [hr]; exact (hfront u).1), (hfront u).2]
  refine Reads.thenDecides (t := []) (reads_maybeNode_none ?_ : Reads _ _ _ _ (fun u => ∃ v, u =
    (Utf8.bytesOf "public" ++ 32 :: Utf8.bytesOf "static") ++ m.partsBytes ++ v) _) ?_
    fun u _ => ⟨u, rfl⟩
  · rintro u ⟨v, rfl⟩
    exact stops_attributes (hfront v).1
  rintro _ rfl
  refine Decides.skip (fun c => ⟨_, run_nextWord⟩) fun word => ?_
  rw [if_neg (by simp)]
  refine hmodifiers.thenDecides ?_ fun u _ => ⟨_, by
    rw [MethodText.partsBytes, List.cons_append, List.append_assoc, List.cons_append]⟩
  rintro _ ⟨x, y, rfl, hx, hy⟩
  refine Decides.look (a := "function") (fun c u hr _ => ?_) ?_
  · have h := next_word hblank hfunction hword
      (boundary_cons (b := 32) (u := m.nameBytes ++ u) rfl)
    rw [Next.run_nextWord (w := Utf8.bytesOf "function" ++ 32 :: (m.nameBytes ++ u))
      (by rw [hr]; simpa [MethodText.partsBytes] using h.1), h.2]
  refine Decides.finish (decides_methodParts hm hd) ?_
  rintro _ ⟨name, ps, type, body, rfl, hname, hps, htype, hbody⟩
  refine (reads_nodeFrom .method start _).mono (fun _ hu => hu) fun z hz => ?_
  exact isMethod_of hz.1 hz.2 hx hy hname hps htype hbody

end Php

end FacadeStubs
