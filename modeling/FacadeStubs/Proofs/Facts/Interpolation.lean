import FacadeStubs.Facade
import FacadeStubs.Proofs.Layout.Statements
import FacadeStubs.Proofs.Notation.Variables
import FacadeStubs.Proofs.Reader.Constants

/-!
# Texts with variables are no constants

The parser knows the variables in a text between double quotes and makes them parts of its node. The
analysis does not look at the parts: it reads the characters of the text once more and looks for the signs
that open a variable. So two readers have to agree on where variables are, one of bytes and one of
characters.

They do, but for one thing: the parser lets the name of a variable begin with any byte above ASCII, and the
reader of characters looks for a letter of ASCII behind the dollar sign (`Node.IsWideIn`).

Results:
* `Node.OpensIn.opensAscii`: a part that is not wide stands where both readers see a variable.
* `exists_opensVariable`: the characters of a text open a variable where its bytes do.
* `constantOf_interpolated`: a text with a part that is not wide is kept as source text and names no service.
* `constantOf_wide`: a text with a wide variable is taken for a constant.
-/
namespace FacadeStubs.Php

open Lexical Notation

/-! ## Where parts stand -/

/-- In front of a part, a text opens a brace that no backslash escapes. -/
def Node.IsBracedIn (part : Node) (source : Bytes) (text : Node) : Prop :=
  ∃ front, (source.drop text.start).take (part.start - text.start) = front ++ [123] ∧
    escapesNext 92 false front = false

/-- A variable outside braces whose name begins with a byte above ASCII. -/
def Node.IsWideIn (part : Node) (source : Bytes) (text : Node) : Prop :=
  (∃ b rest, source.drop part.start = 36 :: b :: rest ∧ 128 ≤ b) ∧ ¬ part.IsBracedIn source text

/-- Where something opens that is seen without a look at bytes above ASCII. -/
def OpensAscii (bytes : Bytes) : Prop :=
  (∃ rest, bytes = 123 :: 36 :: rest) ∨
    ∃ b rest, bytes = 36 :: b :: rest ∧ beginsVariable (b :: rest) = true ∧ b < 128

section
variable {source : Bytes} {part text : Node} {mark before after : Bytes}

/-- The source from a text on, up to a place in the text and from there on. -/
theorem Node.drop_of_bytes (h : text.bytes source = mark ++ 34 :: (before ++ after ++ [34])) :
    (source.drop text.start).take (mark.length + 1 + before.length) = mark ++ 34 :: before ∧
      ∃ rest, source.drop (text.start + (mark.length + 1) + before.length) = after ++ rest := by
  obtain ⟨tail, htail⟩ : text.bytes source <+: source.drop text.start := List.take_prefix _ _
  have hsplit : source.drop text.start = (mark ++ 34 :: before) ++ (after ++ ([34] ++ tail)) := by
    rw [← htail, h]
    simp
  have hlength : mark.length + 1 + before.length = (mark ++ 34 :: before).length := by
    simp only [List.length_append, List.length_cons]
    omega
  refine ⟨by rw [hsplit, hlength, List.take_left], [34] ++ tail, ?_⟩
  rw [Nat.add_assoc, hlength, ← List.drop_drop, hsplit, List.drop_left]

/-- Backslashes escape behind an opening quote as if nothing were in front of it. -/
theorem escapesNext_quoted (mark before : Bytes) :
    escapesNext 92 false (mark ++ 34 :: before) = escapesNext 92 false before := by
  rw [escapesNext_append, escapesNext_cons_of_ne (by decide)]

/-- A part that is not wide stands where the text opens something with signs of ASCII. -/
theorem Node.OpensIn.opensAscii (h : part.OpensIn source text) (hwide : ¬ part.IsWideIn source text) :
    ∃ mark before after : Bytes, mark ∈ [[], [98], [66]] ∧
      text.bytes source = mark ++ 34 :: (before ++ after ++ [34]) ∧
        escapesNext 92 false before = false ∧ OpensAscii after := by
  obtain ⟨mark, before, after, hmark, hbytes, hbefore, hopens⟩ := h
  rcases hopens with hbrace | ⟨b, rest, rfl, hbegins, hplace⟩
  · exact ⟨mark, before, after, hmark, hbytes, hbefore, .inl hbrace⟩
  by_cases hb : b < 128
  · exact ⟨mark, before, _, hmark, hbytes, hbefore, .inr ⟨b, rest, rfl, hbegins, hb⟩⟩
  -- the name begins above ASCII, so the part is in braces: the text opens something one byte earlier
  obtain ⟨hfront, tail, htail⟩ := Node.drop_of_bytes hbytes
  have hbraced : part.IsBracedIn source text := by
    by_contra hbare
    refine hwide ⟨⟨b, rest ++ tail, ?_, ?_⟩, hbare⟩
    · rw [hplace, htail]
      rfl
    · exact UInt8.not_lt.1 hb
  obtain ⟨front, htake, hescapes⟩ := hbraced
  have hlength : part.start - text.start = mark.length + 1 + before.length := by omega
  rw [hlength, hfront] at htake
  rcases List.eq_nil_or_concat before with rfl | ⟨outer, last, rfl⟩
  · obtain ⟨-, hquote⟩ := List.append_inj' htake rfl
    cases hquote
  · obtain ⟨rfl, hlast⟩ : mark ++ 34 :: outer = front ∧ [last] = [123] := by
      refine List.append_inj' ?_ rfl
      simpa using htake
    obtain rfl := List.head_eq_of_cons_eq hlast
    rw [escapesNext_quoted] at hescapes
    refine ⟨mark, outer, 123 :: 36 :: b :: rest, hmark, ?_, hescapes, .inl ⟨_, rfl⟩⟩
    rw [hbytes]
    simp

end

/-! ## Bytes and characters of a text -/

/-- What is encoded is what its bytes show. -/
theorem eq_lossy_of_encode {s : List Char} {bytes : Bytes} (h : Utf8.encode s = bytes) :
    s = Utf8.lossy bytes := by
  rw [← h, Utf8.lossy_encode]

/-- The bytes of a text between double quotes are those of characters between double quotes. -/
theorem exists_quoted {cs : List Char} {mark inside : Bytes} (hmark : mark ∈ [[], [98], [66]])
    (h : Utf8.encode cs = mark ++ 34 :: (inside ++ [34])) :
    ∃ sign ∈ [[], ['b'], ['B']], ∃ inner, cs = sign ++ '"' :: (inner ++ ['"']) ∧
      Utf8.encode inner = inside := by
  obtain ⟨sign, behind, rfl, hsign, hbehind⟩ := Utf8.encode_split (c := '"') (by decide) h
  obtain ⟨inner, rest, rfl, hinner, hrest⟩ := Utf8.encode_split (c := '"') (by decide) hbehind
  obtain rfl : rest = [] := eq_lossy_of_encode hrest
  refine ⟨sign, ?_, inner, rfl, hinner⟩
  have hsigns : ∀ mark ∈ [[], [98], [66]], Utf8.lossy mark ∈ [[], ['b'], ['B']] := by decide
  rw [eq_lossy_of_encode hsign]
  exact hsigns mark hmark

/-- A byte of ASCII that begins a variable is a character that opens one. -/
theorem exists_opening {b : UInt8} {rest : Bytes} (hb : b < 128) (h : beginsVariable (b :: rest) = true) :
    ∃ d : Char, d.toNat < 128 ∧ d.toNat.toUInt8 = b ∧ (d.isAlpha = true ∨ d = '_' ∨ d = '\x7b') := by
  have hall : ∀ n < 128, beginsVariable [UInt8.ofNat n] = true →
      (Char.ofNat n).toNat = n ∧
        ((Char.ofNat n).isAlpha = true ∨ Char.ofNat n = '_' ∨ Char.ofNat n = '\x7b') := by decide
  have hn : b.toNat < 128 := UInt8.lt_iff_toNat_lt.1 hb
  obtain ⟨hval, hopens⟩ := hall b.toNat hn (by rw [UInt8.ofNat_toNat]; exact h)
  refine ⟨Char.ofNat b.toNat, ?_, ?_, hopens⟩
  · rwa [hval]
  · rw [hval]
    exact UInt8.ofNat_toNat

/-- Where the bytes of a text open something, its characters open a variable. -/
theorem exists_opensVariable {inner : List Char} {before after : Bytes}
    (h : Utf8.encode inner = before ++ after) (hopens : OpensAscii after) :
    ∃ front behind, inner = front ++ behind ∧ Utf8.encode front = before ∧ OpensVariable behind := by
  have hfirst : ∀ {c : Char} {s : List Char} {rest : Bytes}, c.toNat < 128 →
      Utf8.encode s = c.toNat.toUInt8 :: rest → ∃ t, s = c :: t := by
    intro c s rest hc hs
    have hsplit : Utf8.encode s = [] ++ c.toNat.toUInt8 :: rest := hs
    obtain ⟨front, t, rfl, hfront, -⟩ := Utf8.encode_split hc hsplit
    obtain rfl : front = [] := eq_lossy_of_encode hfront
    exact ⟨t, rfl⟩
  rcases hopens with ⟨rest, rfl⟩ | ⟨b, rest, rfl, hbegins, hb⟩
  · obtain ⟨front, behind, rfl, hfront, hbehind⟩ := Utf8.encode_split (c := '\x7b') (by decide) h
    obtain ⟨t, rfl⟩ := hfirst (c := '$') (by decide) hbehind
    exact ⟨front, _, rfl, hfront, .brace t⟩
  · obtain ⟨front, behind, rfl, hfront, hbehind⟩ := Utf8.encode_split (c := '$') (by decide) h
    obtain ⟨d, hd, rfl, hopens⟩ := exists_opening hb hbegins
    obtain ⟨t, rfl⟩ := hfirst hd hbehind
    exact ⟨front, _, rfl, hfront, .dollar d t hopens⟩

/-! ## Texts with variables -/

theorem solid_quoted {sign : List Char} (hsign : sign ∈ [[], ['b'], ['B']]) (inner : List Char) :
    Solid (sign ++ '"' :: (inner ++ ['"'])) := by
  have hquote : isBlank '"' = false := by decide
  refine ⟨?_, '"', ?_, hquote⟩
  · simp only [List.mem_cons, List.not_mem_nil, or_false] at hsign
    rcases hsign with rfl | rfl | rfl
    · exact ⟨'"', rfl, hquote⟩
    · exact ⟨'b', rfl, by decide⟩
    · exact ⟨'B', rfl, by decide⟩
  · rw [List.getLast?_append, List.getLast?_cons, List.getLast?_append]
    simp

/-- A text that opens something has no value of its own, and no blanks at its ends. -/
theorem string?_opens {source : Bytes} {text : Node} {mark before after : Bytes}
    (hmark : mark ∈ [[], [98], [66]]) (hbytes : text.bytes source = mark ++ 34 :: (before ++ after ++ [34]))
    (hbefore : escapesNext 92 false before = false) (hopens : OpensAscii after) :
    string? (text.text source).toList = none ∧ trimmed (text.text source) = text.text source := by
  cases hdecode : Utf8.decode? (text.bytes source) with
  | none =>
    have hempty : text.text source = "" := by rw [Node.text, hdecode]
    rw [hempty]
    decide
  | some cs =>
    have htext : (text.text source).toList = cs := by rw [Node.text, hdecode, String.toList_ofList]
    have hencode := Utf8.decode?_eq_some_iff.1 hdecode
    rw [hbytes] at hencode
    obtain ⟨sign, hsign, inner, rfl, hinner⟩ := exists_quoted hmark hencode
    obtain ⟨front, behind, rfl, rfl, hbehind⟩ := exists_opensVariable hinner hopens
    rw [escapesNext_encode] at hbefore
    constructor
    · rw [htext, string?_quoted hsign]
      exact doubleQuoted?_variable hbehind hbefore
    · apply trimmed_solid
      rw [htext]
      exact solid_quoted hsign _

/-- Source text names no service. -/
theorem key?_expr (index : ClassIndex) (called : String) (budget : Nat) (kept : String) :
    Facade.key? index called budget (.expr kept) = none := by
  cases budget <;> rfl

/-- A text between double quotes with a variable or expression in it is no constant, unless all of them are
variables outside braces whose names begin above ASCII: in every scope it is kept as source text, and it
names no service. -/
theorem constantOf_interpolated {source : Bytes} {tree : Node} (h : parse? source = some tree) {n m : Node}
    (hn : n ∈ tree.parts) (hkind : n.kind = .encapsedString) (hm : m ∈ n.children)
    (hwide : ¬ m.IsWideIn source n) :
    string? (n.text source).toList = none ∧
      ∀ scope, constantOf source scope n = .expr (absoluteSource source scope n) ∧
        ∀ index called budget, Facade.key? index called budget (constantOf source scope n) = none := by
  have hpart : n ∈ Node.partsIn [tree] := mem_partsIn.2 ⟨tree, List.mem_cons_self, hn⟩
  have hopens : m.OpensIn source n := Node.opensIn_of_fits hkind ((laid_of_parse? h).fits n hpart) m hm
  obtain ⟨mark, before, after, hmark, hbytes, hbefore, hafter⟩ := hopens.opensAscii hwide
  obtain ⟨hnone, htrim⟩ := string?_opens hmark hbytes hbefore hafter
  have hkept : ∀ scope, constantOf source scope n = .expr (absoluteSource source scope n) := by
    intro scope
    obtain ⟨kind, start, stop, children⟩ := n
    obtain rfl : kind = .encapsedString := hkind
    have hvalue : string? (trimmed (Node.text source (.mk .encapsedString start stop []))).toList = none :=
      (congrArg (fun s : String => string? s.toList) htrim).trans hnone
    rw [constantOf]
    simp only [hvalue, Option.map_none, Option.getD_none]
  refine ⟨hnone, fun scope => ⟨hkept scope, fun index called budget => ?_⟩⟩
  rw [hkept scope]
  exact key?_expr index called budget _

/-- A text with a backslash that escapes nothing, and in braces a variable whose name begins above ASCII. -/
def bracedSource : Bytes := Utf8.bytesOf "<?php return \"\\é \x7b$é\x7d\";"

def bracedText : Node := .mk .encapsedString 13 24 [.mk .dollarName 19 22 []]

theorem constantOf_interpolated_braced : bracedText.text bracedSource = "\"\\é \x7b$é\x7d\"" ∧
    string? (bracedText.text bracedSource).toList = none := by
  have hparse : parse? bracedSource = some (.mk .program 0 25 [.mk .returnStatement 6 25 [bracedText]]) := by
    decide +kernel
  have hpart : bracedText ∈ Node.parts (.mk .program 0 25 [.mk .returnStatement 6 25 [bracedText]]) := by
    decide
  have hbraced : Node.IsBracedIn (.mk .dollarName 19 22 []) bracedSource bracedText :=
    ⟨[34, 92, 195, 169, 32], by decide, by decide⟩
  obtain ⟨hnone, -⟩ := constantOf_interpolated hparse hpart rfl List.mem_cons_self fun hwide => hwide.2 hbraced
  exact ⟨by decide, hnone⟩

/-- The same variable without the braces. -/
def wideSource : Bytes := Utf8.bytesOf "<?php return \"$é\";"

def wideText : Node := .mk .encapsedString 13 18 [.mk .dollarName 14 17 []]

/-- A variable whose name begins above ASCII is taken for a part of a constant text, which names a service. -/
theorem constantOf_wide : ∃ tree, parse? wideSource = some tree ∧ wideText ∈ tree.parts ∧
    wideText.children ≠ [] ∧ string? (wideText.text wideSource).toList = some ['$', 'é'] ∧
      ∀ scope, constantOf wideSource scope wideText = .str "$é" ∧ ∀ index called budget,
        Facade.key? index called budget (constantOf wideSource scope wideText) = some "$é" := by
  have htext : trimmed (Node.text wideSource (.mk .encapsedString 13 18 [])) = "\"$é\"" := by decide
  have hvalue : string? "\"$é\"".toList = some ['$', 'é'] := by decide
  have hconstant : ∀ scope, constantOf wideSource scope wideText = .str "$é" := by
    intro scope
    rw [wideText, constantOf]
    simp only [htext, hvalue, Option.map_some, Option.getD_some]
  refine ⟨.mk .program 0 19 [.mk .returnStatement 6 19 [wideText]], by decide +kernel, by decide, by decide,
    by decide, fun scope => ⟨hconstant scope, fun index called budget => ?_⟩⟩
  rw [hconstant scope]
  cases budget <;> rfl

end FacadeStubs.Php
