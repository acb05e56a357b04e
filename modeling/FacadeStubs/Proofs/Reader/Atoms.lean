import FacadeStubs.Proofs.Reader.Operations

/-!
# Texts that are one operand

The forms in which scalars and references to constants are written are read whole as one operand,
whatever may follow an operand: words, numbers, strings between single quotes, the escaped NUL, and a
class by its path with a constant of it.
-/
namespace FacadeStubs.Php

open Lexical Reader

/-- A form that nothing of its own may follow is read by its first token alone. -/
theorem operandWith_closed {g : Grammar} {c d : Cursor} {node : Node} {rank : Rank}
    (h : (primary g).run c = some (.closed rank node, d)) :
    (operandWith g).run c = some (.closed rank node, d) := by
  unfold operandWith
  rw [run_bind_some h, run_bind_some run_turns]
  rfl

/-- A value is read by its first form if nothing goes it on. -/
theorem operandWith_value {g : Grammar} {c d : Cursor} {node : Node} (ht : d.tagEnds = false)
    (hs : Settled (d.rest.drop (gaps d.rest))) (h : (primary g).run c = some (.value node, d)) :
    (operandWith g).run c = some (.value node, d) := by
  unfold operandWith
  rw [run_bind_some h, run_bind_some run_turns]
  exact run_extensionsWithin ht hs (by simp [Operand.value]) _

/-! ## Words -/

/-- How a word has to begin, and what it may not be, to stand as an operand in parentheses. -/
def IsWord (t : Bytes) : Prop :=
  IsName t ∧ t.head?.all (fun b => !isSign b && beginsNoScalar b && isSolid b) = true ∧
    castTypes.contains (String.ofList (folded t)) = false

instance (t : Bytes) : Decidable (IsWord t) := inferInstanceAs (Decidable (_ ∧ _ ∧ _))

theorem IsWord.isClosed {t : Bytes} (h : IsWord t) : isClosed t = false := isClosed_name h.1 []

/-- A word that begins no scalar is read as what it introduces. -/
theorem operandWith_word {t u : Bytes} (ht : IsWord t) {g : Grammar} {c : Cursor}
    (htag : c.tagEnds = false) (hr : c.rest = t ++ u) (hu : Ends t u) {node : Node}
    {extent : Extent} {rank : Rank} (hext : extent = .value ∨ extent = .closed)
    (hrun : (wordOperand g c.rest).run c = some (⟨node, extent, rank⟩, c.past t.length)) :
    (operandWith g).run c = some (⟨node, extent, rank⟩, c.past t.length) := by
  have hbound : Boundary u := hu.boundary ht.isClosed
  obtain ⟨hname, hfirst, -⟩ := ht
  obtain ⟨b, rest, rfl⟩ := List.exists_cons_of_ne_nil hname.1
  simp only [List.head?_cons, Option.all_some, Bool.and_eq_true, Bool.not_eq_true'] at hfirst
  have hn : nameLength c.rest ≠ 0 := by
    rw [hr, nameLength_append hname hbound]
    simp
  have hprimary := (primary_word hr hfirst.1.2 hn).trans hrun
  unfold operandWith
  rw [run_bind_some hprimary, run_bind_some run_turns]
  rcases hext with rfl | rfl
  · exact run_extensionsWithin (c := c.past (b :: rest).length) htag
      (by rw [Cursor.past_rest_append hr]; exact hu.settled) (by simp) _
  · rfl

/-- A word is an atom if it is read as an operand where a word introduces one. -/
theorem isAtom_word {t : Bytes} (ht : IsWord t)
    (h : ∀ (g : Grammar) (c : Cursor) (u : Bytes), c.tagEnds = false → c.rest = t ++ u → Ends t u →
      ∃ kind extent rank, kind.isAtomic = true ∧ (extent = .value ∨ extent = .closed) ∧
        (wordOperand g c.rest).run c =
          some (⟨.mk kind c.offset (c.offset + t.length) [], extent, rank⟩,
            c.past t.length)) : IsAtom t := by
  obtain ⟨hname, hfirst, hcast⟩ := id ht
  obtain ⟨b, rest, rfl⟩ := List.exists_cons_of_ne_nil hname.1
  simp only [List.head?_cons, Option.all_some, Bool.and_eq_true, Bool.not_eq_true'] at hfirst
  refine ⟨fun u => beginsToken_solid hfirst.2, ⟨b, rest, rfl, hfirst.1.1⟩, fun u hu => ?_, ?_⟩
  · rw [wordAt_append hname (hu ht.isClosed)]
    exact hcast
  · intro long n c u htag _ hr hu
    obtain ⟨kind, extent, rank, hkind, hext, hrun⟩ := h (Grammar.upTo long n) c u htag hr hu
    exact ⟨kind, [], extent, rank, hkind, by simp, hext, operandWith_word ht htag hr hu hext hrun⟩

/-- The words that stand for a value. -/
def literalWords : List Bytes := [[78, 85, 76, 76], [116, 114, 117, 101], [102, 97, 108, 115, 101]]

theorem isWord_literalWord {t : Bytes} (ht : t ∈ literalWords) :
    IsWord t ∧ (String.ofList (folded t) = "null" ∨ String.ofList (folded t) = "true" ∨
      String.ofList (folded t) = "false") := by
  have hall : ∀ t ∈ literalWords, IsWord t ∧ (String.ofList (folded t) = "null" ∨
      String.ofList (folded t) = "true" ∨ String.ofList (folded t) = "false") := by decide
  exact hall t ht

/-- Such a word is read as a literal. -/
theorem wordOperand_literalWord {t u : Bytes} (ht : t ∈ literalWords) {g : Grammar} {c : Cursor}
    (hr : c.rest = t ++ u) (hu : Boundary u) :
    (wordOperand g c.rest).run c = some (⟨.mk
      (if String.ofList (folded t) = "null" then .nullLiteral else .booleanLiteral)
      c.offset (c.offset + t.length) [], .closed, .primary⟩, c.past t.length) := by
  obtain ⟨hword, hvalue⟩ := isWord_literalWord ht
  have hn : nameLength c.rest = t.length := by rw [hr, nameLength_append hword.1 hu]
  have h0 : nameLength c.rest ≠ 0 := by rw [hn]; simpa using hword.1.1
  have hw : wordAt c.rest = String.ofList (folded t) := by
    rw [hr, wordAt_append hword.1 hu]
  have hrun := wordOperand_literal (g := g) h0 (by rw [hw]; exact hvalue)
  rw [hn, hw] at hrun
  exact hrun

theorem isAtom_literalWord {t : Bytes} (ht : t ∈ literalWords) : IsAtom t := by
  refine isAtom_word (isWord_literalWord ht).1 fun g c u _ hr hu => ?_
  exact ⟨_, .closed, .primary, by split <;> rfl, .inr rfl,
    wordOperand_literalWord ht hr (hu.boundary (isWord_literalWord ht).1.isClosed)⟩

/-- The words that introduce an operand of their own. -/
def formWords : List String :=
  ["new", "clone", "print", "throw", "include", "include_once", "require", "require_once", "yield",
   "fn", "function", "match", "null", "true", "false", "list", "array", "static", "namespace"]

/-- The name of a constant: a word that introduces nothing else and is no relative class. -/
def IsConstantName (t : Bytes) : Prop :=
  IsWord t ∧ String.ofList (folded t) ∉ formWords ∧
    String.ofList (t.map fun b => Char.ofNat b.toNat) ∉ ["self", "parent"]

instance (t : Bytes) : Decidable (IsConstantName t) := inferInstanceAs (Decidable (_ ∧ _ ∧ _))

/-- A word that introduces nothing else is read as a name. -/
theorem wordOperand_name {g : Grammar} {bytes : Bytes} {c : Cursor} (h : wordAt bytes ∉ formWords)
    (hrelative : isRelativeScope bytes = false) :
    (wordOperand g bytes).run c = (do return .value (← anyName) : Reader Operand).run c := by
  have hne : ∀ word ∈ formWords, wordAt bytes ≠ word := fun word hword heq => h (heq ▸ hword)
  unfold wordOperand
  rw [run_bind_some run_position]
  generalize hw : wordAt bytes = word at *
  split
  case h_18 =>
    have hstatic : (word == "static") = false := beq_false_of_ne (hne _ (by decide))
    simp only [hstatic, Bool.false_and, hrelative]
    rfl
  all_goals exact absurd rfl (hne _ (by decide))

theorem isAtom_constantName {t : Bytes} (ht : IsConstantName t) : IsAtom t := by
  obtain ⟨hword, hkeyword, hself⟩ := ht
  refine isAtom_word hword fun g c u htag hr hu => ?_
  have hbound : Boundary u := hu.boundary hword.isClosed
  have hends : EndsPath c.tagEnds u := by
    rw [htag]
    exact endsPath_inner hbound hu.settled.backslash
  have hnamespace : String.ofList (folded t) ≠ "namespace" :=
    fun h => hkeyword (h ▸ by decide)
  have hstatic : String.ofList (folded t) ≠ "static" := fun h => hkeyword (h ▸ by decide)
  have hrun := run_anyName_single hword.1 hends hnamespace hr
  have hw : wordAt c.rest = String.ofList (folded t) := by
    rw [hr, wordAt_append hword.1 hbound]
  have hexact : exactWordAt c.rest = String.ofList (t.map fun b => Char.ofNat b.toNat) := by
    rw [exactWordAt, hr, nameLength_append hword.1 hbound, List.take_left]
  have hrelative : isRelativeScope c.rest = false := by
    rw [isRelativeScope, hw, hexact]
    simpa [hstatic] using hself
  refine ⟨.name, .value, .primary, rfl, .inl rfl, ?_⟩
  rw [wordOperand_name (by rw [hw]; exact hkeyword) hrelative]
  exact (run_bind_some hrun).trans rfl

/-- The names of numbers that have no digits. -/
def numberNames : List Bytes := [[73, 78, 70], [78, 65, 78]]

theorem isAtom_numberName {t : Bytes} (ht : t ∈ numberNames) : IsAtom t := by
  have hall : ∀ t ∈ numberNames, IsConstantName t := by decide
  exact isAtom_constantName (hall t ht)

/-! ## Numbers -/

/-- The bytes of decimal numbers. -/
def isDecimalByte (b : UInt8) : Bool := isDigit b || b == 43 || b == 45 || b == 46 || b == 69

theorem isClosed_decimal {t : Bytes} (h : ∀ b ∈ t, isDecimalByte b = true) : isClosed t = false := by
  cases hlast : t.getLast? with
  | none => simp [isClosed, hlast]
  | some b =>
    have hb := h b (List.mem_of_getLast? hlast)
    rw [isClosed, hlast, Option.any_some]
    refine Bool.eq_false_iff.2 fun hcloses => ?_
    simp only [Bool.or_eq_true, beq_iff_eq] at hcloses
    rcases hcloses with ((rfl | rfl) | rfl) | rfl <;> cases hb

theorem isDecimalByte_digit {b : UInt8} (h : isDigit b = true) : isDecimalByte b = true := by
  simp [isDecimalByte, h]

theorem Ends.behindDigit {a : UInt8} {rest u : Bytes} (h : Ends (a :: rest) u) (ha : isDigit a = true)
    (hdecimal : ∀ b ∈ a :: rest, isDecimalByte b = true) : Boundary u ∧ u.head? ≠ some 46 :=
  ⟨h.boundary (isClosed_decimal hdecimal), h.point (by simp [isNumeral, ha])⟩

/-- Digits, and whatever goes on with them to a number, are an atom if they are measured whole. -/
theorem isAtom_number {t rest : Bytes} {a : UInt8} (ht : t = a :: rest) (ha : isDigit a = true)
    (hdecimal : ∀ b ∈ t, isDecimalByte b = true)
    (hn : ∀ u, Boundary u → u.head? ≠ some 46 →
      max (integerLength (t ++ u)) (floatLength (t ++ u)) = t.length) : IsAtom t := by
  subst ht
  have hsign : isSign a = false := by
    cases hs : isSign a with
    | false => rfl
    | true =>
      rcases isSign_iff.1 hs with rfl | rfl | rfl | rfl <;> cases ha
  refine ⟨fun u => beginsToken_solid (isSolid_digit ha), ⟨a, rest, rfl, hsign⟩, fun u hu => ?_, ?_⟩
  · have hword : wordAt (a :: rest ++ u) = "" := by simp [wordAt, nameLength, ha, folded]
    rw [hword]
    rfl
  · intro long n c u htag _ hr hu
    obtain ⟨hbound, hpoint⟩ := hu.behindDigit ha hdecimal
    have hrun := primary_number (g := Grammar.upTo long n) hr (.inl ha) (n := (a :: rest).length) (by simp)
      (by rw [hr]; exact hn u hbound hpoint)
    exact ⟨_, [], .closed, .primary, by split <;> rfl, by simp, .inr rfl, operandWith_closed hrun⟩

/-- A whole number without leading zeros. -/
theorem isAtom_digits {t : Bytes} (hne : t ≠ []) (hd : ∀ b ∈ t, isDigit b = true)
    (h0 : t.head? = some 48 → t = [48]) : IsAtom t := by
  obtain ⟨a, rest, rfl⟩ := List.exists_cons_of_ne_nil hne
  refine isAtom_number rfl (hd a (by simp)) (fun b hb => isDecimalByte_digit (hd b hb)) fun u hu hp => ?_
  rw [integerLength_digits hne hd h0 hu, floatLength_digits hd hu hp, Nat.max_zero]

/-- Such a number is read as an integer. -/
theorem operandWith_digits {t u : Bytes} (hne : t ≠ []) (hd : ∀ b ∈ t, isDigit b = true)
    (h0 : t.head? = some 48 → t = [48]) {g : Grammar} {c : Cursor} (hr : c.rest = t ++ u)
    (hu : Ends t u) : (operandWith g).run c = some (.closed .primary
      (.mk .integerLiteral c.offset (c.offset + t.length) []), c.past t.length) := by
  obtain ⟨a, rest, rfl⟩ := List.exists_cons_of_ne_nil hne
  obtain ⟨hbound, hpoint⟩ := hu.behindDigit (hd a (by simp)) fun b hb => isDecimalByte_digit (hd b hb)
  have hinteger := integerLength_digits hne hd h0 hbound
  have hfloat := floatLength_digits hd hbound hpoint
  have hrun := primary_number (g := g) hr (.inl (hd a (by simp))) (n := (a :: rest).length) (by simp)
    (by rw [hr, hinteger, hfloat, Nat.max_zero])
  rw [hr, hinteger, hfloat, if_neg (Nat.not_lt_zero _)] at hrun
  exact operandWith_closed hrun

/-- Digits around a point. -/
theorem isAtom_point {w f : Bytes} (hne : w ≠ []) (hw : ∀ b ∈ w, isDigit b = true)
    (hf : ∀ b ∈ f, isDigit b = true) : IsAtom (w ++ 46 :: f) := by
  obtain ⟨a, rest, rfl⟩ := List.exists_cons_of_ne_nil hne
  have hdecimal : ∀ b ∈ a :: rest ++ 46 :: f, isDecimalByte b = true := by
    simp only [List.forall_mem_append, List.forall_mem_cons (a := (46 : UInt8))]
    exact ⟨fun b hb => isDecimalByte_digit (hw b hb), rfl, fun b hb => isDecimalByte_digit (hf b hb)⟩
  refine isAtom_number rfl (hw a (by simp)) hdecimal fun u hu _ => ?_
  have hfloat := floatLength_point hw hf (digitGroups_boundary (fun _ h => h) hu)
  rw [exponentLength_boundary hu] at hfloat
  have hint := integerLength_le (x := f ++ u) hw
  simp only [List.append_assoc, List.cons_append, List.length_append, List.length_cons] at *
  omega

/-- Digits around a point, and an exponent with its sign. -/
theorem isAtom_exponent {w f ds : Bytes} {sign : UInt8} (hne : w ≠ [])
    (hw : ∀ b ∈ w, isDigit b = true) (hf : ∀ b ∈ f, isDigit b = true) (hsign : sign = 43 ∨ sign = 45)
    (hds : ds ≠ []) (hd : ∀ b ∈ ds, isDigit b = true) :
    IsAtom (w ++ 46 :: (f ++ 69 :: sign :: ds)) := by
  obtain ⟨a, rest, rfl⟩ := List.exists_cons_of_ne_nil hne
  have hdecimal : ∀ b ∈ a :: rest ++ 46 :: (f ++ 69 :: sign :: ds), isDecimalByte b = true := by
    simp only [List.forall_mem_append, List.forall_mem_cons (a := (46 : UInt8)),
      List.forall_mem_cons (a := (69 : UInt8)), List.forall_mem_cons (a := sign)]
    exact ⟨fun b hb => isDecimalByte_digit (hw b hb), rfl, fun b hb => isDecimalByte_digit (hf b hb), rfl,
      by rcases hsign with rfl | rfl <;> rfl, fun b hb => isDecimalByte_digit (hd b hb)⟩
  refine isAtom_number rfl (hw a (by simp)) hdecimal fun u hu _ => ?_
  have hx : digitGroups isDigit (69 :: sign :: (ds ++ u)) = 0 := rfl
  have hfloat := floatLength_point hw hf hx
  rw [exponentLength_signed hsign hds hd hu] at hfloat
  have hint := integerLength_le (x := f ++ 69 :: sign :: (ds ++ u)) hw
  simp only [List.append_assoc, List.cons_append, List.length_append, List.length_cons] at *
  omega

/-! ## Strings -/

/-- A string between single quotes is read up to the first quote that is not escaped. -/
theorem operandWith_quoted {t u : Bytes} (h : singleQuoted? (t ++ 39 :: u) = some (t.length + 1))
    {g : Grammar} {c : Cursor} (htag : c.tagEnds = false) (hr : c.rest = 39 :: (t ++ [39]) ++ u)
    (hu : Ends (39 :: (t ++ [39])) u) : (operandWith g).run c = some (.value (.mk .plainString c.offset
      (c.offset + (39 :: (t ++ [39])).length) []), c.past (39 :: (t ++ [39])).length) := by
  have hr' : c.rest = 39 :: (t ++ 39 :: u) := by simp [hr]
  have hlen : (39 :: (t ++ [39])).length = t.length + 1 + 1 := by simp
  rw [hlen]
  refine operandWith_value htag ?_ (primary_plainString hr' h)
  have hend : (c.past (t.length + 1 + 1)).rest = u := by simp [hr']
  rw [hend]
  exact hu.settled

theorem isAtom_quoted {t : Bytes}
    (h : ∀ u, singleQuoted? (t ++ 39 :: u) = some (t.length + 1)) : IsAtom (39 :: (t ++ [39])) := by
  refine ⟨fun u => beginsToken_solid rfl, ⟨39, t ++ [39], rfl, rfl⟩, fun u _ => ?_, ?_⟩
  · have hword : wordAt (39 :: (t ++ [39]) ++ u) = "" := wordAt_boundary (boundary_cons rfl)
    rw [hword]
    rfl
  · intro long n c u htag _ hr hu
    exact ⟨.plainString, [], .value, .primary, rfl, by simp, .inl rfl,
      operandWith_quoted (h u) htag hr hu⟩

/-- The string of one NUL, written as an escape. -/
def nulText : Bytes := [34, 92, 48, 34]

theorem operandWith_nulText {u : Bytes} {g : Grammar} {c : Cursor} (htag : c.tagEnds = false)
    (hsize : c.rest.length ≤ c.size) (hr : c.rest = nulText ++ u) (hu : Ends nulText u) :
    (operandWith g).run c = some (.value (.mk .encapsedString c.offset
      (c.offset + nulText.length) []), c.past nulText.length) := by
  have hr' : c.rest = 34 :: 92 :: 48 :: 34 :: u := hr
  have hrun := primary_nulString (g := g) hr' (by rw [hr'] at hsize; simp at hsize; omega)
  refine operandWith_value (d := c.past nulText.length) htag ?_ hrun
  rw [Cursor.past_rest_append hr]
  exact hu.settled

theorem isAtom_nulText : IsAtom nulText := by
  refine ⟨fun u => beginsToken_solid rfl, ⟨34, _, rfl, rfl⟩, fun u _ => ?_, ?_⟩
  · have hword : wordAt (nulText ++ u) = "" := wordAt_boundary (boundary_cons rfl)
    rw [hword]
    rfl
  · intro long n c u htag hsize hr hu
    exact ⟨.encapsedString, [], .value, .primary, rfl, by simp, .inl rfl,
      operandWith_nulText htag hsize hr hu⟩

/-! ## References -/

/-- A class by its path from the root and a constant of it. -/
theorem isAtom_reference {s : Bytes} {names : List Bytes} {n : Bytes} (hs : IsName s)
    (hnames : ∀ t ∈ names, IsName t) (hn : IsName n) :
    IsAtom (pathBytes (s :: names) ++ 58 :: 58 :: n) := by
  have hfirst : pathBytes (s :: names) ++ 58 :: 58 :: n =
      92 :: (s ++ (pathBytes names ++ 58 :: 58 :: n)) := by simp [pathBytes]
  refine ⟨fun u => ?_, ⟨92, _, hfirst, rfl⟩, fun u _ => ?_, ?_⟩
  · rw [hfirst]
    exact beginsToken_solid rfl
  · have hword : wordAt (pathBytes (s :: names) ++ 58 :: 58 :: n ++ u) = "" := by
      rw [hfirst]
      exact wordAt_boundary (boundary_cons rfl)
    rw [hword]
    rfl
  · intro long k c u htag hsize hr hu
    have hclosed : isClosed (pathBytes (s :: names) ++ 58 :: 58 :: n) = false := by
      rw [List.append_cons, List.append_cons]
      exact isClosed_name hn _
    have hrun := operandWith_reference (g := Grammar.upTo long k) hs hnames hn (hu.boundary hclosed)
      hu.settled htag hsize (by simp [hr]) rfl rfl
    refine ⟨.classConstant, _, .value, .primary, rfl, ?_, .inl rfl, hrun⟩
    simp only [List.mem_cons, List.not_mem_nil, or_false]
    rintro m (rfl | rfl) <;> rfl

/-- The words for a class relative to the present one. -/
def relativeWords : List Bytes :=
  [[115, 101, 108, 102], [112, 97, 114, 101, 110, 116], [115, 116, 97, 116, 105, 99]]

theorem isWord_relativeWord {t : Bytes} (ht : t ∈ relativeWords) : IsWord t := by
  have hall : ∀ t ∈ relativeWords, IsWord t := by decide
  exact hall t ht

/-- In front of a member such a word is a class. -/
theorem wordOperand_relative {t u : Bytes} (ht : t ∈ relativeWords) {g : Grammar} {c : Cursor}
    (hr : c.rest = t ++ 58 :: 58 :: u) : (wordOperand g c.rest).run c =
      (scopedMember g (.mk .relativeScope c.offset (c.offset + t.length) [])).run (c.past t.length) := by
  obtain ⟨hname, -⟩ := isWord_relativeWord ht
  have hbound : Boundary (58 :: 58 :: u) := boundary_cons rfl
  have hn : nameLength c.rest = t.length := by rw [hr, nameLength_append hname hbound]
  have hn0 : nameLength c.rest ≠ 0 := by
    rw [hn]
    simpa using hname.1
  have hw : wordAt c.rest = String.ofList (folded t) := by rw [hr, wordAt_append hname hbound]
  have hleaf : (leaf .relativeScope (keyword (String.ofList (folded t)))).run c =
      some (.mk .relativeScope c.offset (c.offset + t.length) [], c.past t.length) := by
    rw [run_wordLeaf hn0 hw, hn]
  have hexact : exactWordAt c.rest = String.ofList (t.map fun b => Char.ofNat b.toNat) := by
    rw [exactWordAt, hr, nameLength_append hname hbound, List.take_left]
  have hrelative : isRelativeScope c.rest = true := by
    rw [isRelativeScope, hw, hexact]
    have hall : ∀ t ∈ relativeWords, (String.ofList (folded t) == "static" ||
        ["self", "parent"].contains (String.ofList (t.map fun b => Char.ofNat b.toNat))) = true := by
      decide
    exact hall t ht
  have hrest : c.rest.drop t.length = 58 :: 58 :: u := by rw [hr, List.drop_left]
  have htoken : BeginsToken (58 :: 58 :: u) := beginsToken_solid rfl
  have hnext : wordAt (58 :: 58 :: u) = "" := wordAt_boundary hbound
  unfold wordOperand
  rw [run_bind_some run_position]
  simp only [hn, hrest, htoken.gaps, List.drop_zero, hrelative, hnext, hw]
  have hword : String.ofList (folded t) = "self" ∨ String.ofList (folded t) = "parent" ∨
      String.ofList (folded t) = "static" := by
    have hall : ∀ t ∈ relativeWords, String.ofList (folded t) = "self" ∨
        String.ofList (folded t) = "parent" ∨ String.ofList (folded t) = "static" := by decide
    exact hall t ht
  have hcolons : beginsWith "::" (58 :: 58 :: u) = true := rfl
  rcases hword with hword | hword | hword <;>
  · rw [hword] at hleaf ⊢
    simp only [hcolons]
    exact run_bind_some hleaf

/-- A class relative to the present one and a constant of it. -/
theorem isAtom_relative {t n : Bytes} (ht : t ∈ relativeWords) (hn : IsName n) :
    IsAtom (t ++ 58 :: 58 :: n) := by
  obtain ⟨hname, hfirst, hcast⟩ := isWord_relativeWord ht
  obtain ⟨b, rest, hb⟩ := List.exists_cons_of_ne_nil hname.1
  simp only [hb, List.head?_cons, Option.all_some, Bool.and_eq_true, Bool.not_eq_true'] at hfirst
  have hfront : ∀ u, t ++ u = b :: (rest ++ u) := fun u => by rw [hb, List.cons_append]
  have hbound : ∀ u, Boundary (58 :: 58 :: u) := fun u => boundary_cons rfl
  refine ⟨fun u => ?_, ⟨b, _, hfront _, hfirst.1.1⟩, fun u _ => ?_, fun long k c u htag _ hr hu => ?_⟩
  · rw [hfront]
    exact beginsToken_solid hfirst.2
  · have hword : wordAt (t ++ 58 :: 58 :: (n ++ u)) = String.ofList (folded t) :=
      wordAt_append hname (hbound _)
    rw [List.append_assoc]
    exact (congrArg castTypes.contains hword).trans hcast
  · have hclosed : isClosed (t ++ 58 :: 58 :: n) = false := by
      rw [List.append_cons, List.append_cons]
      exact isClosed_name hn _
    have hr' : c.rest = t ++ 58 :: 58 :: (n ++ u) := by simp [hr]
    have hnonempty : nameLength c.rest ≠ 0 := by
      rw [hr', nameLength_append hname (hbound _)]
      simpa using hname.1
    have hprimary : (primary (Grammar.upTo long k)).run c =
        (wordOperand (Grammar.upTo long k) c.rest).run c :=
      primary_word (hr'.trans (hfront _)) hfirst.1.2 hnonempty
    have hmember := run_scopedMember (g := Grammar.upTo long k) (c := c.past t.length)
      (x := .mk .relativeScope c.offset (c.offset + t.length) []) hn (hu.boundary hclosed)
      hu.settled.parenthesis htag (Cursor.past_rest_append hr')
    have hend : ((c.past t.length).past (n.length + 2)).rest = u := by simp [hr]
    have hlen : (t ++ 58 :: 58 :: n).length = t.length + (n.length + 2) := by simp
    have hrun := operandWith_value (d := (c.past t.length).past (n.length + 2)) htag
      (by rw [hend]; exact hu.settled) ((hprimary.trans (wordOperand_relative ht hr')).trans hmember)
    rw [Cursor.past_past, Cursor.past_offset, Nat.add_assoc c.offset, ← hlen] at hrun
    refine ⟨.classConstant, _, .value, .primary, rfl, ?_, .inl rfl, hrun⟩
    simp only [List.mem_cons, List.not_mem_nil, or_false]
    rintro m (rfl | rfl) <;> rfl

end FacadeStubs.Php
