import FacadeStubs.Candidate
import FacadeStubs.Proofs.Text.Words

/-!
# What is guessed from a text

The class that a text seems to declare is found by two searches, one for the word `class` and one for the
word `namespace`. `StartsClass` and `StartsNamespace` say what may stand at a position, with nothing said
about which of several readings is meant: blanks may be divided between the gap and the stretch, and a
stretch may go on behind its first semicolon. A search takes the least position at which there is a
reading at all, there as many blanks as possible, and with these the shortest stretch (`IsClassMatch`,
`IsNamespaceMatch`).

* `firstMatch?_eq_some_iff`: a search finds what is at the least position that has anything;
* `classHere?_eq_some_iff`, `namespaceHere?_eq_some_iff`: which reading is taken at a position;
* `isBare_iff`: what is left of a stretch;
* `ofText?_exact`: there is a guess exactly if there is a class somewhere, and then its parts are those of
  the two matches. A namespace of which nothing is left is none, and no later one is tried.
-/
namespace FacadeStubs

/-! ## Characters -/

/-- The code points of the blanks. -/
def blankPoints : List Nat :=
  [9, 10, 11, 12, 13, 32, 0x85, 0xA0, 0x1680, 0x2000, 0x2001, 0x2002, 0x2003, 0x2004, 0x2005, 0x2006, 0x2007,
    0x2008, 0x2009, 0x200A, 0x2028, 0x2029, 0x202F, 0x205F, 0x3000]

theorem mem_blankPoints {c : Char} (h : isBlank c = true) : c.toNat ∈ blankPoints := by
  simp only [isBlank, Bool.or_eq_true, Bool.and_eq_true, decide_eq_true_eq, beq_iff_eq] at h
  simp only [blankPoints, List.mem_cons, List.not_mem_nil, or_false]
  omega

/-- A blank does not stand in a word. -/
theorem isWordChar_of_isBlank {c : Char} (h : isBlank c = true) : isWordChar c = false := by
  have hall : ∀ n ∈ blankPoints, isWordChar (Char.ofNat n) = false := by decide +kernel
  simpa using hall _ (mem_blankPoints h)

namespace Candidate

/-! ## Searching -/

section FirstMatch

variable {α : Type} {match? : List Char → Option α}

/-- A search finds what is at the least position that has anything. -/
theorem firstMatch?_eq_some_iff {a : α} : ∀ {text : List Char}, firstMatch? match? text = some a ↔
    ∃ i, match? (text.drop i) = some a ∧ ∀ j < i, match? (text.drop j) = none
  | [] => by
    constructor
    · exact fun h => ⟨0, h, by simp⟩
    · rintro ⟨i, hi, -⟩
      rwa [List.drop_nil] at hi
  | c :: text => by
    cases hc : match? (c :: text) with
    | some b =>
      rw [firstMatch?, hc]
      constructor
      · exact fun h => ⟨0, by simpa [hc] using h, by simp⟩
      · rintro ⟨i, hi, hleast⟩
        cases i with
        | zero => simpa [hc] using hi
        | succ i => simpa [hc] using hleast 0 (by omega)
    | none =>
      rw [firstMatch?, hc]
      refine firstMatch?_eq_some_iff.trans ⟨?_, ?_⟩
      · rintro ⟨i, hi, hleast⟩
        refine ⟨i + 1, hi, fun j hj => ?_⟩
        cases j with
        | zero => exact hc
        | succ j => exact hleast j (by omega)
      · rintro ⟨i, hi, hleast⟩
        cases i with
        | zero => simp [hc] at hi
        | succ i => exact ⟨i, hi, fun j hj => hleast (j + 1) (by omega)⟩

theorem firstMatch?_eq_none_iff : ∀ {text : List Char}, firstMatch? match? text = none ↔
    ∀ i, match? (text.drop i) = none
  | [] => by simp [firstMatch?]
  | c :: text => by
    cases hc : match? (c :: text) with
    | some b =>
      rw [firstMatch?, hc]
      exact iff_of_false (by simp) fun h => by simpa [hc] using h 0
    | none =>
      rw [firstMatch?, hc]
      refine firstMatch?_eq_none_iff.trans ⟨fun h i => ?_, fun h i => h (i + 1)⟩
      cases i with
      | zero => exact hc
      | succ i => exact h i

end FirstMatch

/-! ## The class -/

/-- A text starts with the word `class`, with blanks behind it and word characters behind these. -/
structure StartsClass (text blanks word : List Char) : Prop where
  text_eq : ∃ rest, text = "class".toList ++ (blanks ++ (word ++ rest))
  blanks : blanks ≠ [] ∧ Blanks blanks
  word : word ≠ [] ∧ ∀ c ∈ word, isWordChar c = true

theorem exists_startsClass {text word : List Char} (h : classHere? text = some word) :
    ∃ blanks, StartsClass text blanks word := by
  cases hrest : afterStart? "class".toList text with
  | none => simp only [classHere?, hrest, reduceCtorEq] at h
  | some rest =>
    simp only [classHere?, hrest, List.isEmpty_iff, Option.ite_none_left_eq_some, Option.some.injEq] at h
    obtain ⟨hblanks, hword, rfl⟩ := h
    refine ⟨rest.takeWhile isBlank, ⟨(rest.dropWhile isBlank).dropWhile isWordChar, ?_⟩,
      ⟨hblanks, fun c hc => List.mem_takeWhile_imp hc⟩, hword, fun c hc => List.mem_takeWhile_imp hc⟩
    rw [List.takeWhile_append_dropWhile, List.takeWhile_append_dropWhile]
    exact afterStart?_eq_some_iff.mp hrest

/-- What is taken at a position goes on from every word that can be read there. -/
theorem StartsClass.classHere? {text blanks word : List Char} (h : StartsClass text blanks word) :
    ∃ more, classHere? text = some (word ++ more) := by
  obtain ⟨⟨rest, rfl⟩, ⟨hne, hblanks⟩, hword, hchars⟩ := h
  have hstop : ∃ c, (word ++ rest).head? = some c ∧ isBlank c = false := by
    obtain ⟨c, word, rfl⟩ := List.exists_cons_of_ne_nil hword
    refine ⟨c, rfl, ?_⟩
    cases hc : isBlank c with
    | false => rfl
    | true => simpa [isWordChar_of_isBlank hc] using hchars c List.mem_cons_self
  have hdrop : (blanks ++ (word ++ rest)).dropWhile isBlank = word ++ rest := dropWhile_solid hblanks hstop
  have htake : (word ++ rest).takeWhile isWordChar = word ++ rest.takeWhile isWordChar :=
    List.takeWhile_append_of_pos hchars
  refine ⟨rest.takeWhile isWordChar, ?_⟩
  rw [Candidate.classHere?, afterStart?_eq_some_iff.mpr rfl]
  simp only [hdrop, htake, List.takeWhile_append_of_pos hblanks]
  simp [hne, hword]

theorem classHere?_eq_none_iff {text : List Char} :
    classHere? text = none ↔ ∀ blanks word, ¬StartsClass text blanks word := by
  constructor
  · intro h blanks word hstarts
    obtain ⟨more, hmore⟩ := hstarts.classHere?
    rw [h] at hmore
    cases hmore
  · intro h
    cases hword : classHere? text with
    | none => rfl
    | some word =>
      obtain ⟨blanks, hstarts⟩ := exists_startsClass hword
      exact absurd hstarts (h blanks word)

/-- The longest of the words that can be read at a position is taken. -/
theorem classHere?_eq_some_iff {text word : List Char} : classHere? text = some word ↔
    (∃ blanks, StartsClass text blanks word) ∧ ∀ b w, StartsClass text b w → w.length ≤ word.length := by
  constructor
  · intro h
    refine ⟨exists_startsClass h, fun b w hw => ?_⟩
    obtain ⟨more, hmore⟩ := hw.classHere?
    rw [h, Option.some.injEq] at hmore
    simp [hmore]
  · rintro ⟨⟨blanks, hstarts⟩, hlongest⟩
    obtain ⟨more, hmore⟩ := hstarts.classHere?
    obtain ⟨b, hb⟩ := exists_startsClass hmore
    have hlen := hlongest b _ hb
    rw [List.length_append] at hlen
    have hnil : more = [] := List.eq_nil_of_length_eq_zero (by omega)
    rw [hmore, hnil, List.append_nil]

/-! ## The namespace -/

/-- A text starts with a stretch of a line that is not empty and a semicolon behind it. -/
structure StartsStretch (text stretch : List Char) : Prop where
  text_eq : ∃ rest, text = stretch ++ ';' :: rest
  stretch : stretch ≠ [] ∧ '\n' ∉ stretch

/-- A text starts with the word `namespace`, with blanks behind it and a stretch behind these. -/
structure StartsNamespace (text blanks stretch : List Char) : Prop where
  text_eq : ∃ behind, text = "namespace".toList ++ (blanks ++ behind) ∧ StartsStretch behind stretch
  blanks : blanks ≠ [] ∧ Blanks blanks

/-- A stretch is known by where it starts and how long it is. -/
theorem StartsStretch.unique {text s s' : List Char} (h : StartsStretch text s) (h' : StartsStretch text s')
    (hlen : s.length = s'.length) : s = s' := by
  obtain ⟨rest, hrest⟩ := h.text_eq
  obtain ⟨rest', hrest'⟩ := h'.text_eq
  exact (List.append_inj (hrest.symm.trans hrest') hlen).1

theorem untilSemicolon?_sound : ∀ {text s : List Char}, untilSemicolon? text = some s →
    (∃ rest, text = s ++ ';' :: rest) ∧ '\n' ∉ s
  | [], s, h => by simp [untilSemicolon?] at h
  | c :: text, s, h => by
    rw [untilSemicolon?] at h
    split at h
    · next hc =>
      cases h
      rw [beq_iff_eq] at hc
      exact ⟨⟨text, by rw [hc]; rfl⟩, by simp⟩
    · split at h
      · cases h
      · next hc =>
        obtain ⟨s, hs, rfl⟩ := Option.map_eq_some_iff.mp h
        obtain ⟨⟨rest, rfl⟩, hline⟩ := untilSemicolon?_sound hs
        rw [beq_iff_eq] at hc
        exact ⟨⟨rest, rfl⟩, by simp [hline, Ne.symm hc]⟩

/-- A semicolon is found, at the latest where one is known to stand. -/
theorem untilSemicolon?_of_line (rest : List Char) : ∀ {s : List Char}, '\n' ∉ s →
    ∃ s', untilSemicolon? (s ++ ';' :: rest) = some s' ∧ s'.length ≤ s.length
  | [], _ => ⟨[], by simp [untilSemicolon?], by simp⟩
  | c :: s, h => by
    simp only [List.mem_cons, not_or] at h
    obtain ⟨s', hs', hlen⟩ := untilSemicolon?_of_line rest h.2
    by_cases hc : c = ';'
    · exact ⟨[], by simp [untilSemicolon?, hc], by simp⟩
    · exact ⟨c :: s', by simp [untilSemicolon?, hc, Ne.symm h.1, hs'], by simpa using hlen⟩

theorem startsStretch_of_stretch? {text s : List Char} (h : stretch? text = some s) : StartsStretch text s := by
  cases text with
  | nil => simp [stretch?] at h
  | cons c text =>
    rw [stretch?] at h
    split at h
    · cases h
    · next hc =>
      obtain ⟨s, hs, rfl⟩ := Option.map_eq_some_iff.mp h
      obtain ⟨⟨rest, rfl⟩, hline⟩ := untilSemicolon?_sound hs
      rw [beq_iff_eq] at hc
      exact ⟨⟨rest, rfl⟩, by simp, by simp [hline, Ne.symm hc]⟩

theorem StartsStretch.stretch? {text s : List Char} (h : StartsStretch text s) :
    ∃ s', stretch? text = some s' ∧ s'.length ≤ s.length := by
  obtain ⟨⟨rest, rfl⟩, hne, hline⟩ := h
  obtain ⟨c, s, rfl⟩ := List.exists_cons_of_ne_nil hne
  simp only [List.mem_cons, not_or] at hline
  obtain ⟨s', hs', hlen⟩ := untilSemicolon?_of_line rest hline.2
  exact ⟨c :: s', by simp [Candidate.stretch?, Ne.symm hline.1, hs'], by simpa using hlen⟩

/-- The shortest stretch is taken. -/
theorem stretch?_eq_some_iff {text s : List Char} : stretch? text = some s ↔
    StartsStretch text s ∧ ∀ s', StartsStretch text s' → s.length ≤ s'.length := by
  have hshortest : ∀ {s}, stretch? text = some s → ∀ s', StartsStretch text s' → s.length ≤ s'.length := by
    intro s hs s' hs'
    obtain ⟨t, ht, hlen⟩ := hs'.stretch?
    rw [hs, Option.some.injEq] at ht
    rwa [ht]
  constructor
  · exact fun h => ⟨startsStretch_of_stretch? h, hshortest h⟩
  · rintro ⟨h, hleast⟩
    obtain ⟨t, ht, hlen⟩ := h.stretch?
    rw [ht, Option.some.injEq]
    exact (startsStretch_of_stretch? ht).unique h (by have := hleast t (startsStretch_of_stretch? ht); omega)

theorem stretch?_eq_none_iff {text : List Char} : stretch? text = none ↔ ∀ s, ¬StartsStretch text s := by
  constructor
  · intro h s hs
    obtain ⟨t, ht, -⟩ := hs.stretch?
    rw [h] at ht
    cases ht
  · intro h
    cases hs : stretch? text with
    | none => rfl
    | some s => exact absurd (startsStretch_of_stretch? hs) (h s)

/-! ### Blanks that are given back -/

section Blanks

variable {text : List Char}

theorem stretchAfterBlanks?_cons (c : Char) (blanks : List Char) : stretchAfterBlanks? (c :: blanks) text =
    (stretchAfterBlanks? blanks text).or (stretch? (blanks ++ text)) := by
  cases blanks with
  | nil => rfl
  | cons d blanks =>
    rw [stretchAfterBlanks?]
    cases stretchAfterBlanks? (d :: blanks) text <;> rfl

theorem stretchAfterBlanks?_eq_none_iff : ∀ {blanks : List Char}, stretchAfterBlanks? blanks text = none ↔
    ∀ b left, blanks = b ++ left → b ≠ [] → stretch? (left ++ text) = none
  | [] => by simp [stretchAfterBlanks?]
  | c :: blanks => by
    rw [stretchAfterBlanks?_cons, Option.or_eq_none_iff, stretchAfterBlanks?_eq_none_iff]
    constructor
    · rintro ⟨hmore, hone⟩ b left hsplit hne
      obtain ⟨x, b, rfl⟩ := List.exists_cons_of_ne_nil hne
      obtain ⟨-, hsplit⟩ := List.cons.inj hsplit
      by_cases hb : b = []
      · rwa [hsplit, hb] at hone
      · exact hmore b left hsplit hb
    · intro h
      refine ⟨fun b left hsplit _ => h (c :: b) left (by rw [hsplit]; rfl) (by simp), ?_⟩
      exact h [c] blanks rfl (by simp)

/-- The stretch that is found is the one behind as many blanks as there can be with a stretch. -/
theorem exists_of_stretchAfterBlanks? {s : List Char} : ∀ {blanks : List Char},
    stretchAfterBlanks? blanks text = some s → ∃ b left, blanks = b ++ left ∧ b ≠ [] ∧
      stretch? (left ++ text) = some s ∧ ∀ b' left', blanks = b' ++ left' → b.length < b'.length →
        stretch? (left' ++ text) = none
  | [], h => by simp [stretchAfterBlanks?] at h
  | c :: blanks, h => by
    rw [stretchAfterBlanks?_cons] at h
    cases hmore : stretchAfterBlanks? blanks text with
    | some t =>
      obtain rfl : t = s := by simpa [hmore] using h
      obtain ⟨b, left, hsplit, -, hs, hmost⟩ := exists_of_stretchAfterBlanks? hmore
      refine ⟨c :: b, left, by rw [hsplit]; rfl, by simp, hs, fun b' left' hsplit' hlen => ?_⟩
      cases b' with
      | nil => simp at hlen
      | cons x b' => exact hmost b' left' (List.cons.inj hsplit').2 (by simpa using hlen)
    | none =>
      rw [hmore, Option.none_or] at h
      refine ⟨[c], blanks, rfl, by simp, h, fun b' left' hsplit' hlen => ?_⟩
      cases b' with
      | nil => simp at hlen
      | cons x b' =>
        refine stretchAfterBlanks?_eq_none_iff.mp hmore b' left' (List.cons.inj hsplit').2 ?_
        rintro rfl
        simp at hlen

end Blanks

/-! ### The reading that is taken -/

/-- Of what can be read at the start of a text, the reading with the most blanks, and with these the
shortest stretch. -/
structure TakesNamespace (text blanks stretch : List Char) : Prop where
  starts : StartsNamespace text blanks stretch
  mostBlanks : ∀ b s, StartsNamespace text b s → b.length ≤ blanks.length
  shortest : ∀ b s, StartsNamespace text b s → b.length = blanks.length → stretch.length ≤ s.length

theorem StartsNamespace.blanks_unique {text b s b' s' : List Char} (h : StartsNamespace text b s)
    (h' : StartsNamespace text b' s') (hlen : b.length = b'.length) : b = b' := by
  obtain ⟨behind, htext, -⟩ := h.text_eq
  obtain ⟨behind', htext', -⟩ := h'.text_eq
  exact (List.append_inj (List.append_cancel_left (htext.symm.trans htext')) hlen).1

theorem StartsNamespace.unique {text b s s' : List Char} (h : StartsNamespace text b s)
    (h' : StartsNamespace text b s') (hlen : s.length = s'.length) : s = s' := by
  obtain ⟨behind, htext, hs⟩ := h.text_eq
  obtain ⟨behind', htext', hs'⟩ := h'.text_eq
  obtain rfl := List.append_cancel_left (List.append_cancel_left (htext.symm.trans htext'))
  exact hs.unique hs' hlen

theorem TakesNamespace.unique {text b s b' s' : List Char} (h : TakesNamespace text b s)
    (h' : TakesNamespace text b' s') : s = s' := by
  have hblanks : b.length = b'.length :=
    Nat.le_antisymm (h'.mostBlanks _ _ h.starts) (h.mostBlanks _ _ h'.starts)
  obtain rfl := h.starts.blanks_unique h'.starts hblanks
  exact h.starts.unique h'.starts
    (Nat.le_antisymm (h.shortest _ _ h'.starts rfl) (h'.shortest _ _ h.starts rfl))

/-- The blanks of a reading are some of those behind the word, and the others go to the stretch. -/
theorem startsNamespace_iff {text b s : List Char} : StartsNamespace text b s ↔
    ∃ rest left, afterStart? "namespace".toList text = some rest ∧ rest.takeWhile isBlank = b ++ left ∧
      b ≠ [] ∧ StartsStretch (left ++ rest.dropWhile isBlank) s := by
  constructor
  · rintro ⟨⟨behind, htext, hs⟩, hne, hb⟩
    refine ⟨b ++ behind, behind.takeWhile isBlank, afterStart?_eq_some_iff.mpr htext,
      List.takeWhile_append_of_pos hb, hne, ?_⟩
    rwa [List.dropWhile_append_of_pos hb, List.takeWhile_append_dropWhile]
  · rintro ⟨rest, left, hrest, htake, hne, hs⟩
    refine ⟨⟨_, ?_, hs⟩, hne, fun c hc => List.mem_takeWhile_imp (l := rest) (by simp [htake, hc])⟩
    rw [afterStart?_eq_some_iff.mp hrest, ← List.append_assoc b, ← htake, List.takeWhile_append_dropWhile]

theorem namespaceHere?_eq_none_iff {text : List Char} :
    namespaceHere? text = none ↔ ∀ b s, ¬StartsNamespace text b s := by
  simp only [startsNamespace_iff]
  cases hrest : afterStart? "namespace".toList text with
  | none =>
    simp only [namespaceHere?, hrest]
    simp
  | some rest =>
    simp only [namespaceHere?, hrest, stretchAfterBlanks?_eq_none_iff, stretch?_eq_none_iff]
    constructor
    · rintro h b s ⟨_, left, heq, htake, hne, hs⟩
      cases heq
      exact h b left htake hne s hs
    · intro h b left htake hne s hs
      exact h b s ⟨rest, left, rfl, htake, hne, hs⟩

theorem takesNamespace_of_namespaceHere? {text s : List Char} (h : namespaceHere? text = some s) :
    ∃ b, TakesNamespace text b s := by
  cases hrest : afterStart? "namespace".toList text with
  | none => simp only [namespaceHere?, hrest, reduceCtorEq] at h
  | some rest =>
    simp only [namespaceHere?, hrest] at h
    obtain ⟨b, left, htake, hne, hs, hmost⟩ := exists_of_stretchAfterBlanks? h
    obtain ⟨hstarts, hleast⟩ := stretch?_eq_some_iff.mp hs
    refine ⟨b, startsNamespace_iff.mpr ⟨rest, left, hrest, htake, hne, hstarts⟩, fun b' s' h' => ?_,
      fun b' s' h' hlen => ?_⟩
    all_goals
      obtain ⟨rest', left', hrest', htake', -, hs'⟩ := startsNamespace_iff.mp h'
      obtain rfl := Option.some.inj (hrest.symm.trans hrest')
    · by_contra hlt
      exact stretch?_eq_none_iff.mp (hmost b' left' htake' (by omega)) s' hs'
    · obtain ⟨rfl, rfl⟩ := List.append_inj (htake.symm.trans htake') hlen.symm
      exact hleast s' hs'

theorem namespaceHere?_eq_some_iff {text s : List Char} :
    namespaceHere? text = some s ↔ ∃ b, TakesNamespace text b s := by
  refine ⟨takesNamespace_of_namespaceHere?, fun ⟨b, htakes⟩ => ?_⟩
  cases hs' : namespaceHere? text with
  | none => exact absurd htakes.starts (namespaceHere?_eq_none_iff.mp hs' b s)
  | some s' =>
    obtain ⟨b', htakes'⟩ := takesNamespace_of_namespaceHere? hs'
    rw [htakes.unique htakes']

/-! ## The guess -/

/-- A name is what is left of a stretch without the blanks around it, and without the backslashes that
are then in front. -/
structure IsBare (stretch name : List Char) : Prop where
  split : ∃ front slashes back, stretch = front ++ ((slashes ++ name) ++ back) ∧
    Blanks front ∧ Blanks back ∧ (∀ c ∈ slashes, c = '\\') ∧
    (slashes ++ name = [] ∨ Solid (slashes ++ name))
  bare : name.head? ≠ some '\\'

theorem isBare_iff {stretch name : List Char} :
    IsBare stretch name ↔ (trimBlanks stretch).dropWhile (· == '\\') = name := by
  constructor
  · rintro ⟨⟨front, slashes, back, rfl, hfront, hback, hslashes, hcore⟩, hbare⟩
    have htrim : trimBlanks (front ++ ((slashes ++ name) ++ back)) = slashes ++ name := by
      rcases hcore with hnil | hsolid
      · rw [hnil]
        exact trimBlanks_blanks fun c hc => (List.mem_append.mp hc).elim (hfront c) (hback c)
      · exact trimBlanks_gaps hfront hback hsolid
    rw [htrim, List.dropWhile_append_of_pos (by simpa using hslashes)]
    cases name with
    | nil => rfl
    | cons c name => exact List.dropWhile_cons_of_neg (by simpa using hbare)
  · rintro rfl
    obtain ⟨front, back, hfront, hback, hsplit⟩ := exists_trimBlanks stretch
    refine ⟨⟨front, (trimBlanks stretch).takeWhile (· == '\\'), back, ?_, hfront, hback, ?_, ?_⟩, ?_⟩
    · rwa [List.takeWhile_append_dropWhile]
    · exact fun c hc => by simpa using List.mem_takeWhile_imp hc
    · rw [List.takeWhile_append_dropWhile]
      exact trimBlanks_nil_or_solid stretch
    · intro hhead
      have hne : (trimBlanks stretch).dropWhile (· == '\\') ≠ [] := by
        intro hnil
        simp [hnil] at hhead
      obtain ⟨c, hc, hslash⟩ := dropWhile_begins hne
      rw [hhead, Option.some.injEq] at hc
      simp [← hc] at hslash

/-- The word of the match: at the least position at which a class starts, the longest word that can be
read there. -/
def IsClassMatch (text word : List Char) : Prop :=
  ∃ i, (∃ blanks, StartsClass (text.drop i) blanks word) ∧
    (∀ b w, StartsClass (text.drop i) b w → w.length ≤ word.length) ∧
    ∀ j < i, ∀ b w, ¬StartsClass (text.drop j) b w

/-- The stretch of the match: what is taken at the least position at which a namespace starts. -/
def IsNamespaceMatch (text stretch : List Char) : Prop :=
  ∃ i, (∃ blanks, TakesNamespace (text.drop i) blanks stretch) ∧
    ∀ j < i, ∀ b s, ¬StartsNamespace (text.drop j) b s

theorem firstMatch?_classHere?_iff {text word : List Char} :
    firstMatch? classHere? text = some word ↔ IsClassMatch text word := by
  simp only [firstMatch?_eq_some_iff, classHere?_eq_some_iff, classHere?_eq_none_iff, IsClassMatch, and_assoc]

theorem firstMatch?_namespaceHere?_iff {text stretch : List Char} :
    firstMatch? namespaceHere? text = some stretch ↔ IsNamespaceMatch text stretch := by
  simp only [firstMatch?_eq_some_iff, namespaceHere?_eq_some_iff, namespaceHere?_eq_none_iff, IsNamespaceMatch]

/-- What the namespace of a text is: what is left of the stretch of the match, and none if nothing is left
or nothing matches. -/
def IsNamespaceGuess (text : List Char) : Option String → Prop
  | some name => name ≠ "" ∧ ∃ stretch, IsNamespaceMatch text stretch ∧ IsBare stretch name.toList
  | none => (∀ i b s, ¬StartsNamespace (text.drop i) b s) ∨
      ∃ stretch, IsNamespaceMatch text stretch ∧ IsBare stretch []

theorem namespaceOf?_eq_iff {text : List Char} {guess : Option String} :
    namespaceOf? text = guess ↔ IsNamespaceGuess text guess := by
  cases hmatch : firstMatch? namespaceHere? text with
  | none =>
    have hstarts : ∀ i b s, ¬StartsNamespace (text.drop i) b s := by
      simpa only [firstMatch?_eq_none_iff, namespaceHere?_eq_none_iff] using hmatch
    cases guess with
    | none => exact iff_of_true (by simp [namespaceOf?, hmatch]) (.inl hstarts)
    | some name =>
      refine iff_of_false (by simp [namespaceOf?, hmatch]) ?_
      rintro ⟨-, s, ⟨i, ⟨b, htakes⟩, -⟩, -⟩
      exact hstarts i b s htakes.starts
  | some s =>
    obtain ⟨i, ⟨b, htakes⟩, -⟩ := firstMatch?_namespaceHere?_iff.mp hmatch
    have hname : ∀ name, (∃ t, IsNamespaceMatch text t ∧ IsBare t name) ↔
        (trimBlanks s).dropWhile (· == '\\') = name := fun name => by
      simp only [← firstMatch?_namespaceHere?_iff, hmatch, Option.some.injEq, exists_eq_left', isBare_iff]
    cases guess with
    | none =>
      have hsome : ¬∀ i b s, ¬StartsNamespace (text.drop i) b s := fun h => h i b s htakes.starts
      simp [namespaceOf?, hmatch, IsNamespaceGuess, hname, hsome]
    | some name =>
      simp only [namespaceOf?, hmatch, IsNamespaceGuess, hname, List.isEmpty_iff, Option.ite_none_left_eq_some,
        Option.some.injEq]
      constructor
      · rintro ⟨hne, rfl⟩
        exact ⟨fun h => hne (by simpa using congrArg String.toList h), by rw [String.toList_ofList]⟩
      · rintro ⟨hne, h⟩
        rw [h, String.ofList_toList]
        exact ⟨fun hnil => hne (String.toList_eq_nil_iff.mp hnil), rfl⟩

/-- A text seems to declare a class exactly if a class starts at some position, and then the guess has
the word and the namespace of the matches. -/
theorem ofText?_exact (text : List Char) :
    (ofText? text = none ↔ ∀ i b w, ¬StartsClass (text.drop i) b w) ∧
      ∀ c, ofText? text = some c ↔
        IsClassMatch text c.shortName.toList ∧ IsNamespaceGuess text c.namespaceName := by
  constructor
  · rw [ofText?, Option.map_eq_none_iff, firstMatch?_eq_none_iff]
    simp only [classHere?_eq_none_iff]
  · rintro ⟨ns, name⟩
    rw [ofText?, Option.map_eq_some_iff, ← namespaceOf?_eq_iff, ← firstMatch?_classHere?_iff]
    constructor
    · rintro ⟨word, hword, heq⟩
      cases heq
      exact ⟨by rwa [String.toList_ofList], rfl⟩
    · rintro ⟨hword, rfl⟩
      exact ⟨_, hword, by rw [String.ofList_toList]⟩

/-- The last blank belongs to the stretch where only this leaves something in it, and a stretch may have a
semicolon at its start. -/
example : ofText? "namespace  ;class A".toList = some ⟨none, "A"⟩ ∧
    ofText? "namespace  ;x;class A".toList = some ⟨some ";x", "A"⟩ := by
  decide +kernel

end Candidate

end FacadeStubs
