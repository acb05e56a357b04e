import FacadeStubs.Proofs.Decimal.Digits
import FacadeStubs.Proofs.Export.Grouping
import FacadeStubs.Proofs.Reader.Parts

/-!
# Scalars read back

The exported text of a scalar is read by the analysis as an expression again. A string without NUL
characters is read as itself, and one with NUL characters as a row of strings that folds to it. An
integer is read as itself unless its digits are out of range without their sign.

Results:
* `reread?_stringText`: strings, and the quotes that end them.
* `reread?_int`: integers.
-/
namespace FacadeStubs.Export

open Php Lexical

/-- The body of a class in a namespace. -/
def serviceScope : ClassScope :=
  { names := { namespaceName := some "App" }, cls := "App\\Svc", parent := none }

/-- What the analysis takes a text for that is one expression from end to end. -/
def reread? (scope : ClassScope) (s : String) : Option Literal :=
  (expressionOf? (Utf8.bytesOf s)).map (constantOf (Utf8.bytesOf s) scope)

/-- What is read as a constant where an expression is expected is read so from end to end. -/
theorem reread?_of_readsAs {s : String} {v : Literal} (h : ReadsAs (Utf8.bytesOf s) v)
    (scope : ClassScope) : reread? scope s = some v := by
  have hreads : Reads (Utf8.bytesOf s) false
      (expressionWith (Grammar.upTo true (Utf8.bytesOf s).length) Strength.any) (Utf8.bytesOf s)
      (Closes Strength.any) _ := h.reads (Nat.le_refl _) scope
  obtain ⟨node, hrun, hnode⟩ := hreads
    (c := { rest := Utf8.bytesOf s, offset := 0, size := (Utf8.bytesOf s).length }) (u := [])
    ⟨⟨rfl, rfl⟩, rfl, rfl⟩ (by simp) (closes_nil _)
  have hread : ((Grammar.upTo true ((Utf8.bytesOf s).length + 1)).expression Strength.any).run
      { rest := Utf8.bytesOf s, offset := 0, size := (Utf8.bytesOf s).length } = _ := hrun
  simp only [reread?, expressionOf?, hread, Cursor.past, List.drop_length, List.isEmpty_nil, if_true,
    Option.map_some, hnode]

/-- What is grouped is read as what its parts denote. -/
theorem reread?_text {p : Written} {s : String} {v : Literal} (hs : p.text = Utf8.bytesOf s)
    (hp : p.Proper) (hg : p.Grouped) (hv : p.Denotes v) (scope : ClassScope) :
    reread? scope s = some v :=
  reread?_of_readsAs (hs ▸ hv.readsAs hp hg) scope

/-! ## Strings -/

theorem nulParts_eq (s : List Char) :
    s = (nulParts s).1 ++ (nulParts s).2.flatMap fun part => '\x00' :: part := by
  induction s with
  | nil => rfl
  | cons c s ih =>
    rw [nulParts]
    split
    · rename_i h
      have hc : c = '\x00' := Char.toNat_inj.1 (by simpa using h)
      rw [List.nil_append, List.flatMap_cons, List.cons_append, ← ih, hc]
    · rw [List.cons_append, ← ih]

theorem nulParts_of_ne_nul {s : List Char} (h : '\x00' ∉ s) : nulParts s = (s, []) := by
  induction s with
  | nil => rfl
  | cons c s ih =>
    have hc : (c.toNat == 0) = false := by
      refine beq_eq_false_iff_ne.2 fun h0 => h ?_
      have heq : c = '\x00' := Char.toNat_inj.1 h0
      exact heq ▸ List.mem_cons_self
    rw [nulParts, if_neg (by simp [hc]), ih fun hs => h (List.mem_cons_of_mem c hs)]

/-- What a character other than NUL is between single quotes. -/
theorem quotedChar_cases {c : Char} (h : c.toNat ≠ 0) :
    (c = '\\' ∨ c = '\'') ∧ quotedChar c = ['\\', c] ∨
      c ≠ '\\' ∧ c ≠ '\'' ∧ quotedChar c = [c] := by
  by_cases hb : c = '\\'
  · exact .inl ⟨.inl hb, by rw [hb]; rfl⟩
  by_cases hq : c = '\''
  · exact .inl ⟨.inr hq, by rw [hq]; rfl⟩
  exact .inr ⟨hb, hq, by simp [quotedChar, hb, hq, h]⟩

/-- Between single quotes, only the two escaped characters change. -/
theorem singleQuoted_flatMap {part : List Char} (h : ∀ c ∈ part, c.toNat ≠ 0) :
    Notation.singleQuoted (part.flatMap quotedChar) = part := by
  induction part with
  | nil => rfl
  | cons c part ih =>
    have ih' := ih fun d hd => h d (List.mem_cons_of_mem c hd)
    rw [List.flatMap_cons]
    obtain ⟨rfl | rfl, hquoted⟩ | ⟨hb, -, hquoted⟩ := quotedChar_cases (h c List.mem_cons_self)
    · exact congrArg _ ih'
    · exact congrArg _ ih'
    · rw [hquoted, List.singleton_append, Notation.singleQuoted, ih']
      · exact fun _ hc _ => hb hc
      · exact fun _ hc _ => hb hc

/-- Characters between single quotes are read as what they were written from. -/
theorem string?_quoted {part : List Char} (h : ∀ c ∈ part, c.toNat ≠ 0) :
    Notation.string? ('\'' :: (part.flatMap quotedChar ++ ['\''])) = some part := by
  have hmark : Notation.withoutByteMark ('\'' :: (part.flatMap quotedChar ++ ['\''])) =
      '\'' :: (part.flatMap quotedChar ++ ['\'']) := by
    unfold Notation.withoutByteMark
    split
    · rename_i c q rest heq
      have hc : c = '\'' := (List.cons.inj heq).1.symm
      subst hc
      rfl
    · rfl
  unfold Notation.string?
  simp only [hmark, Notation.between?]
  simp [singleQuoted_flatMap h]

/-- Whether what stands behind a text inside single quotes is escaped: an odd number of backslashes
ends the text. -/
def escapesNext (before : List Char) : Bool := (before.reverse.takeWhile (· == '\\')).length % 2 == 1

theorem escapesNext_snoc (before : List Char) (c : Char) :
    escapesNext (before ++ [c]) = (c == '\\' && !escapesNext before) := by
  unfold escapesNext
  rw [List.reverse_append, List.reverse_singleton, List.singleton_append, List.takeWhile_cons]
  cases hc : c == '\\' with
  | false => rfl
  | true =>
    obtain h | h := Nat.mod_two_eq_zero_or_one (before.reverse.takeWhile (· == '\\')).length
    · simp [Nat.add_mod, h]
    · simp [Nat.add_mod, h]

/-- Of the quotes behind the first one, the last one alone is not escaped. -/
theorem escapesNext_iff {part : List Char} (h : ∀ c ∈ part, c.toNat ≠ 0) {front before after : List Char}
    (hfront : escapesNext front = false)
    (heq : part.flatMap quotedChar ++ ['\''] = before ++ '\'' :: after) :
    escapesNext (front ++ before) = false ↔ after = [] := by
  induction part generalizing front before with
  | nil =>
    have hlen := congrArg List.length heq
    simp only [List.flatMap_nil, List.nil_append, List.length_append, List.length_cons,
      List.length_nil] at hlen
    obtain rfl : before = [] := List.length_eq_zero_iff.1 (by omega)
    obtain rfl : after = [] := List.length_eq_zero_iff.1 (by omega)
    simp [hfront]
  | cons c part ih =>
    have ih := @ih fun d hd => h d (List.mem_cons_of_mem c hd)
    rw [List.flatMap_cons, List.append_assoc] at heq
    obtain ⟨hc, hquoted⟩ | ⟨hb, hq, hquoted⟩ := quotedChar_cases (h c List.mem_cons_self)
    · rw [hquoted] at heq
      -- the quote is the escaped character itself, or stands behind it
      match before with
      | [] => cases (List.cons.inj heq).1
      | [b] =>
        simp only [List.cons_append, List.nil_append, List.cons.injEq] at heq
        obtain ⟨rfl, -, rfl⟩ := heq
        simp [escapesNext_snoc, hfront]
      | b :: d :: before =>
        simp only [List.cons_append, List.nil_append, List.cons.injEq] at heq
        obtain ⟨rfl, rfl, heq⟩ := heq
        have hnext : escapesNext (front ++ ['\\'] ++ [c]) = false := by
          rw [escapesNext_snoc, escapesNext_snoc, hfront]
          exact Bool.and_false _
        have hiff := ih hnext heq
        rwa [List.append_assoc, List.append_assoc] at hiff
    · rw [hquoted] at heq
      match before with
      | [] => exact absurd (List.cons.inj heq).1 hq
      | b :: before =>
        simp only [List.cons_append, List.nil_append, List.cons.injEq] at heq
        obtain ⟨rfl, heq⟩ := heq
        have hnext : escapesNext (front ++ [c]) = false := by simp [escapesNext_snoc, hb]
        have hiff := ih hnext heq
        rwa [List.append_assoc] at hiff

theorem solid_quoted (part : List Char) : Solid ('\'' :: (part ++ ['\''])) := by
  have hmark : Solid ['\''] := solid_mark (by decide)
  exact hmark.append hmark part

theorem standsFor_quotedBytes {part : List Char} (h : ∀ c ∈ part, c.toNat ≠ 0) :
    StandsFor (quotedBytes part) (.str (String.ofList part)) := by
  refine standsFor_quoted (s := String.ofList ('\'' :: (part.flatMap quotedChar ++ ['\''])))
    (fun u => singleQuoted?_inside h u) ?_ ?_ ?_
  · rw [Utf8.bytesOf_ofList, Utf8.encode_cons, Utf8.encode_append]
    rfl
  · rw [String.toList_ofList]
    exact solid_quoted _
  · rw [String.toList_ofList]
    exact string?_quoted h

/-- A string with further strings joined to it, a NUL in front of each. -/
def joinedLiteral (first : Literal) : List (List Char) → Literal
  | [] => first
  | part :: parts =>
    joinedLiteral (.binary "." (.binary "." first (.str "\x00")) (.str (String.ofList part))) parts

/-- What a string is read as: a row of its parts, joined where NUL characters stand. -/
def stringLiteral (s : String) : Literal :=
  joinedLiteral (.str (String.ofList (nulParts s.toList).1)) (nulParts s.toList).2

theorem joinedParts_denotes {parts : List (List Char)} (h : ∀ part ∈ parts, ∀ c ∈ part, c.toNat ≠ 0)
    {p : Written} {v : Literal} (hp : p.Denotes v) (hv : v.isExpr = false) :
    (joinedParts p parts).Denotes (joinedLiteral v parts) := by
  induction parts generalizing p v with
  | nil => exact hp
  | cons part parts ih =>
    have hdot : dot ∈ operators := by simp [operators, signOperators, dot]
    have hnul := hp.binary hdot (.atom standsFor_nulText) (by rw [hv]; rfl)
    refine ih (fun q hq => h q (List.mem_cons_of_mem part hq)) ?_ rfl
    exact hnul.binary hdot (.atom (standsFor_quotedBytes (h part List.mem_cons_self))) rfl

theorem joinedParts_grouped {parts : List (List Char)} {p : Written} (hp : p.Grouped)
    (hleft : dot.leftLeast ≤ p.strength .grammar) : (joinedParts p parts).Grouped := by
  induction parts generalizing p with
  | nil => exact hp
  | cons part parts ih =>
    have hdot : dot.leftLeast ≤ dot.strength := by decide
    have hright : dot.rightLeast ≤ 19 := by decide
    exact ih ⟨⟨hp, trivial, hleft, hright⟩, trivial, hdot, hright⟩ hdot

theorem stringWritten_grouped (s : String) : (stringWritten s).Grouped := by
  have hatom : dot.leftLeast ≤ 19 := by decide
  exact joinedParts_grouped (p := .atom _) trivial hatom

theorem stringWritten_denotes (s : String) : (stringWritten s).Denotes (stringLiteral s) := by
  obtain ⟨hfirst, hparts⟩ := nulParts_ne_nul s.toList
  exact joinedParts_denotes hparts (.atom (standsFor_quotedBytes hfirst)) rfl

theorem fold_succ_or_zero (index : ClassIndex) (budget : Nat) :
    ∃ reference, fold index budget = foldWith reference := by
  cases budget with
  | zero => exact ⟨_, rfl⟩
  | succ budget => exact ⟨_, rfl⟩

theorem foldWith_joinedLiteral (reference : String → String → Option Literal)
    {parts : List (List Char)} {v : Literal} {s : String} (hv : foldWith reference v = some (.str s)) :
    foldWith reference (joinedLiteral v parts) =
      some (.str (s ++ String.ofList (parts.flatMap fun part => '\x00' :: part))) := by
  induction parts generalizing v s with
  | nil => simpa [joinedLiteral] using hv
  | cons part parts ih =>
    have hnext : foldWith reference (.binary "." (.binary "." v (.str "\x00"))
        (.str (String.ofList part))) = some (.str (s ++ "\x00" ++ String.ofList part)) := by
      simp [foldWith, hv, binary?, stringOperand?]
    rw [joinedLiteral, ih hnext]
    simp [← String.toList_inj]

/-- The row of its parts folds to the string. -/
theorem fold_stringLiteral (index : ClassIndex) (budget : Nat) (s : String) :
    fold index budget (stringLiteral s) = some (.str s) := by
  obtain ⟨reference, hfold⟩ := fold_succ_or_zero index budget
  rw [hfold, stringLiteral, foldWith_joinedLiteral reference rfl, ← String.ofList_append,
    ← nulParts_eq, String.ofList_toList]

theorem stringLiteral_of_ne_nul {s : String} (h : '\x00' ∉ s.toList) : stringLiteral s = .str s := by
  rw [stringLiteral, nulParts_of_ne_nul h]
  exact congrArg Literal.str String.ofList_toList

/-- The text of a string is read as a row of strings that folds to it. Without NUL characters it is
read as the string itself, and of the quotes behind the first one only the last is not escaped. -/
theorem reread?_stringText (index : ClassIndex) (scope : ClassScope) (s : String) :
    (∃ v, reread? scope (stringText s) = some v ∧ ∀ budget, fold index budget v = some (.str s)) ∧
      ('\x00' ∉ s.toList → reread? scope (stringText s) = some (.str s) ∧
        Notation.string? (stringText s).toList = some s.toList ∧
        ∀ before after, (stringText s).toList = '\'' :: before ++ '\'' :: after →
          (escapesNext before = false ↔ after = [])) := by
  have hread : reread? scope (stringText s) = some (stringLiteral s) :=
    reread?_text (stringWritten_text s) (stringWritten_proper s) (stringWritten_grouped s)
      (stringWritten_denotes s) scope
  have hlist : (stringText s).toList = '\'' :: (s.toList.flatMap quotedChar ++ ['\'']) := by
    rw [stringText, String.toList_ofList]
    rfl
  refine ⟨⟨_, hread, fun budget => fold_stringLiteral index budget s⟩, fun hs => ?_⟩
  have hparts : ∀ c ∈ s.toList, c.toNat ≠ 0 := by
    intro c hc h0
    have hnul : c = '\x00' := Char.toNat_inj.1 h0
    exact hs (hnul ▸ hc)
  refine ⟨by rw [hread, stringLiteral_of_ne_nul hs], by rw [hlist, string?_quoted hparts], ?_⟩
  intro before after heq
  rw [hlist, List.cons_append, List.cons.injEq] at heq
  have hstart : escapesNext [] = false := rfl
  exact escapesNext_iff hparts hstart heq.2

/-- The path of a directory, with a quote in it and a backslash at its end. -/
theorem reread?_stringText_path :
    '\x00' ∉ "C:\\it's\\".toList ∧
      reread? serviceScope (stringText "C:\\it's\\") = some (.str "C:\\it's\\") :=
  ⟨by decide, ((reread?_stringText sumIndex serviceScope "C:\\it's\\").2 (by decide)).1⟩

/-! ## Integers -/

theorem isBlank_digit {c : Char} (h : c.isDigit = true) : isBlank c = false := by
  obtain ⟨hlow, hhigh⟩ := toNat_of_isDigit h
  simp [isBlank]
  omega

theorem integer?_natText (n : Nat) :
    Notation.integer? (Decimal.natText n).toList = Decimal.int64? n := by
  have hdigits := allDigits_toDigits n
  have hfilter : (Nat.toDigits 10 n).filter (· != '_') = Nat.toDigits 10 n := by
    refine List.filter_eq_self.2 fun c hc => bne_iff_ne.2 ?_
    rintro rfl
    cases hdigits _ hc
  have hlowered : lowered (Nat.toDigits 10 n) = Nat.toDigits 10 n := by
    refine (List.map_congr_left fun c hc => ?_).trans (List.map_id _)
    obtain ⟨-, hhigh⟩ := toNat_of_isDigit (hdigits c hc)
    have hupper : ¬ (65 ≤ c.toNat ∧ c.toNat ≤ 90) := fun h => by omega
    exact dif_neg hupper
  have hread : Decimal.readInt64? 10 (Nat.toDigits 10 n) = Decimal.int64? n := by
    rw [Decimal.readInt64?, Decimal.readDigits?_toDigits, Option.bind_some]
  have hhead : ∀ c rest, Nat.toDigits 10 n ≠ '0' :: c :: rest := by
    intro c rest h
    obtain rfl := toDigits_head n (by rw [h]; rfl)
    cases (List.cons.inj h).2
  rw [Decimal.natText, String.toList_ofList]
  unfold Notation.integer?
  simp only [hfilter, hlowered]
  split
  case h_5 => exact hread
  all_goals exact absurd ‹_› (hhead _ _)

theorem standsFor_natText {n : Nat} {i : Int64} (h : Decimal.int64? n = some i) :
    StandsFor (Utf8.bytesOf (Decimal.natText n)) (.int i) := by
  have hdigits := allDigits_toDigits n
  have hne : Nat.toDigits 10 n ≠ [] := Nat.toDigits_ne_nil
  have hbytes : Utf8.bytesOf (Decimal.natText n) = Utf8.encode (Nat.toDigits 10 n) :=
    Utf8.bytesOf_ofList _
  refine standsFor_digits ?_ ?_ ?_ ?_ ((integer?_natText n).trans h)
  · rw [hbytes]
    exact encode_ne_nil hne
  · rw [hbytes]
    exact encode_digits hdigits
  · rw [hbytes]
    exact encode_toDigits_head
  · rw [Decimal.natText, String.toList_ofList]
    exact solid_of_all hne fun c hc => isBlank_digit (hdigits c hc)

/-- An integer denotes itself if its digits are in range without the sign. -/
theorem intWritten_denotes {i : Int64} (h : i ≠ Int64.minValue) :
    (intWritten i.toInt).Denotes (.int i) := by
  have hlow : -9223372036854775808 ≤ i.toInt := i.le_toInt
  have hhigh : i.toInt < 9223372036854775808 := i.toInt_lt
  have hmin : Int64.minValue.toInt = -9223372036854775808 := rfl
  have hne : i.toInt ≠ -9223372036854775808 := fun heq => h (Int64.toInt_inj.1 (heq.trans hmin.symm))
  have hsome : Decimal.int64? (i.toInt.natAbs : Int) = some (Int64.ofInt i.toInt.natAbs) :=
    if_pos (by unfold Decimal.int64Bound; omega)
  have hatom := Written.Denotes.atom (standsFor_natText hsome)
  by_cases hneg : i.toInt < 0
  · have hback : -(Int64.ofInt (i.toInt.natAbs : Int)).toInt = i.toInt := by
      rw [Int64.toInt_ofInt_of_le (by omega) (by omega)]
      omega
    have hsign : signedConstant? (some '-') (.int (Int64.ofInt i.toInt.natAbs)) = some (.int i) := by
      rw [signedConstant?, hback, Decimal.int64?_toInt]
      rfl
    have hwritten : intWritten i.toInt =
        .sign 45 [] (.atom (Utf8.bytesOf (Decimal.natText i.toInt.natAbs))) := by
      rw [intWritten, decide_eq_true hneg]
      rfl
    rw [hwritten]
    have hminus : '-' = '+' ∨ '-' = '-' ∨ '-' = '!' ∨ '-' = '~' := .inr (.inl rfl)
    exact Written.Denotes.sign hminus rfl hatom hsign
  · have hself : Int64.ofInt (i.toInt.natAbs : Int) = i := by
      have habs : (i.toInt.natAbs : Int) = i.toInt := by omega
      rw [habs, Int64.ofInt_toInt]
    rw [hself] at hatom
    rw [intWritten, decide_eq_false hneg]
    exact hatom

theorem signedAtom_grouped {negative : Bool} {t : Bytes} (h : (signedAtom negative t).Proper) :
    (signedAtom negative t).Grouped := by
  cases negative with
  | true =>
    have hatom : IsAtom t := h.2.2
    obtain ⟨b, rest, rfl, hb⟩ := hatom.head
    have hne : b ≠ 45 := fun heq => absurd hb (by rw [heq]; decide)
    exact ⟨trivial, Nat.le_refl _, by simpa [Written.glues, Written.text] using hne⟩
  | false => trivial

theorem floatWritten_grouped {f : Float} (h : (floatWritten f).Proper) : (floatWritten f).Grouped := by
  unfold floatWritten at *
  split
  · trivial
  · exact signedAtom_grouped (by simpa [*] using h)
  · exact signedAtom_grouped (by simpa [*] using h)

theorem scalarWritten_grouped {v : Literal} {t : String} (h : scalarText? v = some t) :
    (scalarWritten v).Grouped := by
  cases v with
  | null | bool _ => trivial
  | int _ => exact signedAtom_grouped (scalarWritten_proper h)
  | float f => exact floatWritten_grouped (scalarWritten_proper h)
  | str s => exact stringWritten_grouped s
  | _ => cases h

theorem text_int (index : ClassIndex) (i : Int64) : text index (.int i) = Decimal.intText i.toInt := rfl

/-- The node of the digits of the smallest integer, behind their sign. -/
def leastNode : Node := .mk .unaryOperation 0 20 [.mk .integerLiteral 1 20 []]

/-- The digits of the smallest integer are no integer without their sign, and stay source text with
it. -/
theorem reread?_least (scope : ClassScope) :
    reread? scope "-9223372036854775808" = some (.expr "-9223372036854775808") := by
  have hread : expressionOf? (Utf8.bytesOf "-9223372036854775808") = some leastNode := by
    decide +kernel
  have hinteger : Notation.integer? (trimmed (Node.text (Utf8.bytesOf "-9223372036854775808")
      (.mk .integerLiteral 1 20 []))).toList = none := by decide +kernel
  obtain ⟨s, hdigits⟩ : ∃ s, constantOf (Utf8.bytesOf "-9223372036854775808") scope
      (.mk .integerLiteral 1 20 []) = .expr s := by
    rw [constantOf, hinteger]
    exact ⟨_, rfl⟩
  have hsign : (trimmed (Node.text (Utf8.bytesOf "-9223372036854775808")
      (.mk .unaryOperation 0 20 []))).toList.head? = some '-' := by decide +kernel
  have htext : absoluteSource (Utf8.bytesOf "-9223372036854775808") scope leastNode =
      String.ofList (trimBlanks (sliceText (Utf8.bytesOf "-9223372036854775808") 0 20)) := rfl
  have hsource : String.ofList (trimBlanks (sliceText (Utf8.bytesOf "-9223372036854775808") 0 20)) =
      "-9223372036854775808" := by decide +kernel
  rw [hsource, leastNode] at htext
  rw [reread?, hread, Option.map_some, leastNode, constantOf]
  simp only [hdigits, hsign, signedConstant?, Option.getD_none, htext]

/-- The text of an integer is read as the integer, but for the smallest one: it is kept as source
text. -/
theorem reread?_int (index : ClassIndex) (scope : ClassScope) (i : Int64) :
    reread? scope (text index (.int i)) =
      some (if i = Int64.minValue then .expr "-9223372036854775808" else .int i) := by
  rw [text_int]
  split
  · rename_i h
    subst h
    exact reread?_least scope
  · rename_i h
    have hproper : (intWritten i.toInt).Proper := scalarWritten_proper (v := .int i) rfl
    exact reread?_text (intWritten_text _) hproper (signedAtom_grouped hproper) (intWritten_denotes h) scope

end FacadeStubs.Export
