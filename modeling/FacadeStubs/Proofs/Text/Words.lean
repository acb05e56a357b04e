import FacadeStubs.NameScope
import Mathlib.Data.List.DropRight
import Mathlib.Data.List.TakeWhile

/-!
# Trimming, cutting and words

What the text functions do to a text that is put together from known parts. A part is *solid* if it
begins and ends with something else than a blank, so that trimming stops at it.

* `trimBlanks_gaps`: blanks around a solid text are trimmed, and nothing else;
* `cutAt?_append`, `cutAtLast?_append`, `pieces_append`: a text is cut at the separators it was put
  together with;
* `blankWords_single`, `blankWords_append`: the words of a text are those between its blanks;
* `afterKeyword?_append`, `afterKeyword?_eq_none`: a keyword is found where a blank follows it.
-/
namespace FacadeStubs

/-! ## Trimming -/

/-- A text of blanks only. -/
def Blanks (g : List Char) : Prop := ∀ c ∈ g, isBlank c = true

/-- A text with no blank at either end. -/
structure Solid (t : List Char) : Prop where
  begins : ∃ c, t.head? = some c ∧ isBlank c = false
  ends : ∃ c, t.getLast? = some c ∧ isBlank c = false

theorem blanks_nil : Blanks [] := fun _ h => by cases h

theorem Solid.ne_nil {t : List Char} (h : Solid t) : t ≠ [] := by
  rintro rfl
  obtain ⟨c, hc, -⟩ := h.begins
  cases hc

/-- What stands between a solid text and another one does not matter for its ends. -/
theorem Solid.append {s t : List Char} (hs : Solid s) (ht : Solid t) (u : List Char) :
    Solid (s ++ (u ++ t)) := by
  obtain ⟨c, hc, hbegins⟩ := hs.begins
  obtain ⟨e, he, hends⟩ := ht.ends
  refine ⟨⟨c, ?_, hbegins⟩, e, ?_, hends⟩
  · rw [List.head?_append, hc, Option.some_or]
  · rw [List.getLast?_append, List.getLast?_append, he]
    simp

theorem solid_of_all {t : List Char} (hne : t ≠ []) (h : ∀ c ∈ t, isBlank c = false) : Solid t :=
  ⟨⟨t.head hne, List.head?_eq_some_head hne, h _ (List.head_mem hne)⟩,
    t.getLast hne, List.getLast?_eq_some_getLast hne, h _ (List.getLast_mem hne)⟩

theorem solid_mark {c : Char} (h : isBlank c = false) : Solid [c] :=
  solid_of_all (by simp) (by simpa using h)

theorem dropWhile_solid {g t : List Char} (hg : Blanks g) (ht : ∃ c, t.head? = some c ∧ isBlank c = false) :
    (g ++ t).dropWhile isBlank = t := by
  obtain ⟨c, hc, hblank⟩ := ht
  obtain ⟨rest, rfl⟩ := List.head?_eq_some_iff.mp hc
  rw [List.dropWhile_append_of_pos hg, List.dropWhile_cons_of_neg (by simp [hblank])]

/-- A longest ending is dropped, up to a character that does not belong to it. -/
theorem dropEndWhile_append {p : Char → Bool} {t g : List Char} (hg : ∀ c ∈ g, p c = true)
    (ht : ∀ c, t.getLast? = some c → p c = false) : dropEndWhile p (t ++ g) = t := by
  unfold dropEndWhile
  rw [List.reverse_append, List.dropWhile_append_of_pos (by simpa using hg)]
  rw [← List.head?_reverse] at ht
  cases hr : t.reverse with
  | nil => simpa using (List.reverse_eq_nil_iff.mp hr).symm
  | cons c rest =>
    rw [List.dropWhile_cons_of_neg (by simp [ht c (by rw [hr]; rfl)]), ← hr, List.reverse_reverse]

theorem dropEndWhile_eq_nil {p : Char → Bool} {t : List Char} (h : ∀ c ∈ t, p c = true) :
    dropEndWhile p t = [] := by
  simpa [dropEndWhile] using h

/-- Blanks around a solid text are trimmed. -/
theorem trimBlanks_gaps {g t g' : List Char} (hg : Blanks g) (hg' : Blanks g') (ht : Solid t) :
    trimBlanks (g ++ (t ++ g')) = t := by
  obtain ⟨c, hc, hbegins⟩ := ht.begins
  obtain ⟨e, he, hends⟩ := ht.ends
  have hdrop : (g ++ (t ++ g')).dropWhile isBlank = t ++ g' := by
    refine dropWhile_solid hg ⟨c, ?_, hbegins⟩
    rw [List.head?_append, hc, Option.some_or]
  rw [trimBlanks, hdrop]
  refine dropEndWhile_append hg' fun x hx => ?_
  rw [he, Option.some.injEq] at hx
  rw [← hx, hends]

theorem trimBlanks_solid {t : List Char} (ht : Solid t) : trimBlanks t = t := by
  simpa using trimBlanks_gaps blanks_nil blanks_nil ht

theorem trimBlanks_blanks {g : List Char} (hg : Blanks g) : trimBlanks g = [] := by
  have hdrop : g.dropWhile isBlank = [] := List.dropWhile_eq_nil_iff.mpr hg
  rw [trimBlanks, hdrop]
  rfl

/-- No ending is dropped beyond a character that does not belong to it. -/
theorem dropEndWhile_stop {p : Char → Bool} (s : List Char) {c : Char} (hc : p c = false)
    (t : List Char) : dropEndWhile p (s ++ c :: t) = s ++ c :: dropEndWhile p t := by
  have hreverse : (s ++ c :: t).reverse = t.reverse ++ c :: s.reverse := by simp
  unfold dropEndWhile
  rw [hreverse, List.dropWhile_append]
  split
  · rename_i hall
    simp [List.isEmpty_iff.mp hall, hc]
  · simp

theorem dropEndWhile_append_of_last {p : Char → Bool} {s : List Char}
    (hs : ∃ c, s.getLast? = some c ∧ p c = false) (t : List Char) :
    dropEndWhile p (s ++ t) = s ++ dropEndWhile p t := by
  obtain ⟨c, hlast, hc⟩ := hs
  obtain ⟨front, rfl⟩ := List.getLast?_eq_some_iff.mp hlast
  rw [List.append_assoc, List.singleton_append, dropEndWhile_stop front hc, List.append_cons]

theorem dropEndWhile_idem (p : Char → Bool) (t : List Char) :
    dropEndWhile p (dropEndWhile p t) = dropEndWhile p t := by
  rw [dropEndWhile, dropEndWhile, List.reverse_reverse, List.dropWhile_idempotent]

theorem exists_dropEndWhile (p : Char → Bool) (t : List Char) :
    ∃ s, (∀ c ∈ s, p c = true) ∧ t = dropEndWhile p t ++ s := by
  refine ⟨(t.reverse.takeWhile p).reverse, ?_, ?_⟩
  · intro c hc
    exact List.mem_takeWhile_imp (List.mem_reverse.mp hc)
  · rw [dropEndWhile, ← List.reverse_append, List.takeWhile_append_dropWhile, List.reverse_reverse]

/-- What is trimmed are blanks. -/
theorem exists_trimBlanks (t : List Char) :
    ∃ g g', Blanks g ∧ Blanks g' ∧ t = g ++ (trimBlanks t ++ g') := by
  obtain ⟨g', hg', hend⟩ := exists_dropEndWhile isBlank (t.dropWhile isBlank)
  refine ⟨t.takeWhile isBlank, g', fun c hc => List.mem_takeWhile_imp hc, hg', ?_⟩
  rw [trimBlanks, ← hend, List.takeWhile_append_dropWhile]

theorem dropWhile_begins {p : Char → Bool} {t : List Char} (h : t.dropWhile p ≠ []) :
    ∃ c, (t.dropWhile p).head? = some c ∧ p c = false :=
  ⟨_, List.head?_eq_some_head h, by simpa using List.head_dropWhile_not p h⟩

/-- What is left of a text after trimming is nothing, or has no blank at either end. -/
theorem trimBlanks_nil_or_solid (t : List Char) : trimBlanks t = [] ∨ Solid (trimBlanks t) := by
  by_cases hne : trimBlanks t = []
  · exact .inl hne
  right
  obtain ⟨s, -, hsplit⟩ := exists_dropEndWhile isBlank (t.dropWhile isBlank)
  rw [← trimBlanks] at hsplit
  constructor
  · obtain ⟨c, hc, hblank⟩ := dropWhile_begins (p := isBlank) (t := t) (by simp [hsplit, hne])
    rw [hsplit, List.head?_append_of_ne_nil _ hne] at hc
    exact ⟨c, hc, hblank⟩
  · rw [trimBlanks, dropEndWhile] at hne ⊢
    rw [List.getLast?_reverse]
    exact dropWhile_begins fun hnil => hne (by rw [hnil]; rfl)

/-! ## Cutting -/

theorem afterStart?_eq_some_iff {rest : List Char} : ∀ {start text : List Char},
    afterStart? start text = some rest ↔ text = start ++ rest
  | [], text => by simp [afterStart?]
  | c :: start, [] => by simp [afterStart?]
  | c :: start, d :: text => by
    by_cases hc : c = d
    · subst hc
      simp [afterStart?, afterStart?_eq_some_iff]
    · simp [afterStart?, hc, Ne.symm hc]

theorem cutAt?_append (separator : Char) (after : List Char) : ∀ before : List Char,
    separator ∉ before → cutAt? separator (before ++ separator :: after) = some (before, after)
  | [], _ => by simp [cutAt?]
  | c :: before, h => by
    simp only [List.mem_cons, not_or] at h
    simp [cutAt?, Ne.symm h.1, cutAt?_append separator after before h.2]

theorem cutAt?_eq_none {separator : Char} : ∀ {text : List Char}, separator ∉ text →
    cutAt? separator text = none
  | [], _ => rfl
  | c :: text, h => by
    simp only [List.mem_cons, not_or] at h
    simp [cutAt?, Ne.symm h.1, cutAt?_eq_none h.2]

theorem exists_cutAt?_of_mem {separator : Char} {text : List Char} (h : separator ∈ text) :
    ∃ before after, cutAt? separator text = some (before, after) := by
  obtain ⟨before, after, rfl, hbefore⟩ := List.eq_append_cons_of_mem h
  exact ⟨before, after, cutAt?_append separator after before hbefore⟩

/-- A text without separators in front goes to the first part. -/
theorem cutAt?_append_left {separator : Char} (text : List Char) : ∀ {front : List Char},
    separator ∉ front → cutAt? separator (front ++ text) =
      (cutAt? separator text).map fun (before, after) => (front ++ before, after)
  | [], _ => by simp
  | c :: front, h => by
    simp only [List.mem_cons, not_or] at h
    simp [cutAt?, Ne.symm h.1, cutAt?_append_left text h.2, Function.comp_def]

/-- A text without separators behind goes to the last part. -/
theorem cutAt?_append_right {separator : Char} {last : List Char} (h : separator ∉ last) :
    ∀ text : List Char, cutAt? separator (text ++ last) =
      (cutAt? separator text).map fun (before, after) => (before, after ++ last)
  | [] => by simp [cutAt?, cutAt?_eq_none h]
  | c :: text => by
    by_cases hc : c = separator
    · simp [cutAt?, hc]
    · simp [cutAt?, hc, cutAt?_append_right h text, Function.comp_def]

/-- What follows some separator is behind the first one. -/
theorem cutAt?_before (separator : Char) (after : List Char) : ∀ front : List Char,
    ∃ before rest, cutAt? separator (front ++ separator :: after) = some (before, rest) ∧
      ∀ c ∈ after, c ∈ rest
  | [] => ⟨[], after, by simp [cutAt?], fun _ h => h⟩
  | c :: front => by
    by_cases hc : c = separator
    · exact ⟨[], front ++ separator :: after, by simp [cutAt?, hc], fun x hx => by simp [hx]⟩
    · obtain ⟨before, rest, hcut, hmem⟩ := cutAt?_before separator after front
      exact ⟨c :: before, rest, by simp [cutAt?, hc, hcut], hmem⟩

theorem cutAtLast?_append {separator : Char} {before after : List Char} (h : separator ∉ after) :
    cutAtLast? separator (before ++ separator :: after) = some (before, after) := by
  have hreverse : (before ++ separator :: after).reverse =
      after.reverse ++ separator :: before.reverse := by simp
  rw [cutAtLast?, hreverse, cutAt?_append separator _ _ (by simpa using h)]
  simp

theorem exists_cutAtLast?_of_mem {separator : Char} {text : List Char} (h : separator ∈ text) :
    ∃ before after, cutAtLast? separator text = some (before, after) := by
  obtain ⟨after, before, hcut⟩ := exists_cutAt?_of_mem (List.mem_reverse.mpr h)
  exact ⟨before.reverse, after.reverse, by simp [cutAtLast?, hcut]⟩

theorem cutAtLast?_eq_none {separator : Char} {text : List Char} (h : separator ∉ text) :
    cutAtLast? separator text = none := by
  rw [cutAtLast?, cutAt?_eq_none (by simpa using h)]
  rfl

/-- A text is cut where a separator stands with none behind it. -/
theorem cutAtLast?_eq_some_iff {separator : Char} {text before after : List Char} :
    cutAtLast? separator text = some (before, after) ↔
      text = before ++ separator :: after ∧ separator ∉ after := by
  constructor
  · intro h
    by_cases hmem : separator ∈ text
    · obtain ⟨behind, front, htext, hbehind⟩ := List.eq_append_cons_of_mem (List.mem_reverse.mpr hmem)
      have hsplit : text = front.reverse ++ separator :: behind.reverse := by
        simpa using congrArg List.reverse htext
      rw [hsplit, cutAtLast?_append (by simpa using hbehind)] at h
      cases h
      exact ⟨hsplit, by simpa using hbehind⟩
    · rw [cutAtLast?_eq_none hmem] at h
      cases h
  · rintro ⟨rfl, hafter⟩
    exact cutAtLast?_append hafter

/-- The last segment is what stands behind the last backslash. -/
theorem lastSegment_append {front last : List Char} (h : '\\' ∉ last) :
    lastSegment (String.ofList (front ++ '\\' :: last)) = String.ofList last := by
  rw [lastSegment, String.toList_ofList, cutAtLast?_append h]

theorem lastSegment_single {last : List Char} (h : '\\' ∉ last) :
    lastSegment (String.ofList last) = String.ofList last := by
  rw [lastSegment, String.toList_ofList, cutAtLast?_eq_none h]

theorem pieces_single {separator : Char} : ∀ {text : List Char}, separator ∉ text →
    pieces separator text = [text]
  | [], _ => rfl
  | c :: text, h => by
    simp only [List.mem_cons, not_or] at h
    simp [pieces, Ne.symm h.1, pieces_single h.2]

theorem pieces_append {separator : Char} (after : List Char) : ∀ {before : List Char},
    separator ∉ before →
    pieces separator (before ++ separator :: after) = before :: pieces separator after
  | [], _ => by simp [pieces]
  | c :: before, h => by
    simp only [List.mem_cons, not_or] at h
    simp [pieces, Ne.symm h.1, pieces_append after h.2]

/-! ## Words -/

theorem wordsFrom_append {word : List Char} (h : ∀ c ∈ word, isBlank c = false)
    (current rest : List Char) :
    wordsFrom current (word ++ rest) = wordsFrom (word.reverse ++ current) rest := by
  induction word generalizing current with
  | nil => rfl
  | cons c word ih =>
    simp only [List.forall_mem_cons] at h
    simp [wordsFrom, h.1, ih h.2]

theorem wordsFrom_blanks {g : List Char} (hg : Blanks g) (rest : List Char) :
    wordsFrom [] (g ++ rest) = wordsFrom [] rest := by
  induction g with
  | nil => rfl
  | cons c g ih =>
    have hc := hg c List.mem_cons_self
    simp only [List.cons_append, wordsFrom, hc, List.isEmpty_nil, if_true]
    exact ih fun x hx => hg x (List.mem_cons_of_mem _ hx)

/-- Blanks at the end make no word. -/
theorem wordsFrom_append_blanks {g : List Char} (hg : Blanks g) (current text : List Char) :
    wordsFrom current (text ++ g) = wordsFrom current text := by
  induction text generalizing current with
  | nil =>
    cases g with
    | nil => rfl
    | cons c g =>
      have hrest := wordsFrom_blanks (fun x hx => hg x (List.mem_cons_of_mem _ hx)) []
      rw [List.append_nil] at hrest
      simp [wordsFrom, hg c List.mem_cons_self, hrest]
  | cons c text ih => simp [wordsFrom, ih]

theorem blankWords_trimBlanks (text : List Char) : blankWords (trimBlanks text) = blankWords text := by
  obtain ⟨g, g', hg, hg', htext⟩ := exists_trimBlanks text
  have hwords : blankWords (g ++ (trimBlanks text ++ g')) = blankWords (trimBlanks text) := by
    rw [blankWords, wordsFrom_blanks hg, wordsFrom_append_blanks hg', blankWords]
  rw [← hwords, ← htext]

/-- A word goes on up to the next blank. -/
theorem exists_wordsFrom {current : List Char} (hne : current ≠ []) (text : List Char) :
    ∃ tail more, wordsFrom current text = (current.reverse ++ tail) :: more := by
  induction text generalizing current with
  | nil => exact ⟨[], [], by simp [wordsFrom, hne]⟩
  | cons c text ih =>
    by_cases hc : isBlank c = true
    · exact ⟨[], wordsFrom [] text, by simp [wordsFrom, hc, hne]⟩
    · obtain ⟨tail, more, hwords⟩ := ih (List.cons_ne_nil c current)
      exact ⟨c :: tail, more, by simp [wordsFrom, hc, hwords]⟩

/-- A character that is no blank belongs to the word before it. -/
theorem blankWords_glued {word : List Char} (h : ∀ c ∈ word, isBlank c = false) {c : Char}
    (hc : isBlank c = false) (rest : List Char) :
    ∃ tail more, blankWords (word ++ c :: rest) = (word ++ c :: tail) :: more := by
  obtain ⟨tail, more, hwords⟩ := exists_wordsFrom (List.cons_ne_nil c word.reverse) rest
  refine ⟨tail, more, ?_⟩
  rw [blankWords, wordsFrom_append h, List.append_nil, wordsFrom, hc]
  simpa using hwords

/-- A text that begins without a blank begins with a word. -/
theorem blankWords_cons {c : Char} (hc : isBlank c = false) (rest : List Char) :
    ∃ tail more, blankWords (c :: rest) = (c :: tail) :: more := by
  obtain ⟨tail, more, hwords⟩ := exists_wordsFrom (List.cons_ne_nil c []) rest
  exact ⟨tail, more, by simpa [blankWords, wordsFrom, hc] using hwords⟩

theorem blankWords_single {word : List Char} (hne : word ≠ []) (h : ∀ c ∈ word, isBlank c = false) :
    blankWords word = [word] := by
  have happend := wordsFrom_append h [] []
  rw [List.append_nil, List.append_nil] at happend
  rw [blankWords, happend, wordsFrom, List.isEmpty_reverse, List.reverse_reverse,
    List.isEmpty_eq_false_iff.mpr hne]
  rfl

theorem blankWords_append {word g rest : List Char} (hne : word ≠ [])
    (h : ∀ c ∈ word, isBlank c = false) (hg : Blanks g) (hgne : g ≠ []) :
    blankWords (word ++ (g ++ rest)) = word :: blankWords rest := by
  obtain ⟨c, g, rfl⟩ := List.exists_cons_of_ne_nil hgne
  have hc := hg c List.mem_cons_self
  have hrest := wordsFrom_blanks (fun x hx => hg x (List.mem_cons_of_mem _ hx)) rest
  rw [blankWords, wordsFrom_append h, List.append_nil, List.cons_append, wordsFrom, hc,
    List.isEmpty_reverse, List.isEmpty_eq_false_iff.mpr hne, List.reverse_reverse, hrest]
  rfl

/-! ## Letters -/

/-- Lowering only makes small letters. -/
theorem eq_of_toLower {c d : Char} (h : c.toLower = d) (hd : d.toNat < 97) : c = d := by
  by_cases hupper : 65 ≤ c.toNat ∧ c.toNat ≤ 90
  · have hval : c.toLower.val = c.val + 32 := congrArg Char.val (dif_pos hupper)
    have hsum : (c.val + 32).toNat = (c.val.toNat + 32) % 2 ^ 32 := UInt32.toNat_add _ _
    have hlow : d.toNat = (c.toNat + 32) % 2 ^ 32 := by
      rw [← h, Char.toNat, hval, hsum, Char.toNat]
    omega
  · have hsame : c.toLower = c := dif_neg hupper
    rw [← hsame, h]

/-- Lowering twice is lowering once. -/
theorem toLower_toLower (c : Char) : c.toLower.toLower = c.toLower := by
  by_cases hupper : 65 ≤ c.toNat ∧ c.toNat ≤ 90
  · have hlower : c.toLower.val = c.val + 32 := congrArg Char.val (dif_pos hupper)
    have hsum : (c.val + 32).toNat = (c.val.toNat + 32) % 2 ^ 32 := UInt32.toNat_add _ _
    have hnumber : c.toLower.toNat = (c.toNat + 32) % 2 ^ 32 := by
      rw [Char.toNat, hlower, hsum, Char.toNat]
    exact dif_neg fun h => by
      have hrange : 65 ≤ c.toLower.toNat ∧ c.toLower.toNat ≤ 90 := h
      omega
  · have hsame : c.toLower = c := dif_neg hupper
    rw [hsame, hsame]

theorem length_lowered (text : List Char) : (lowered text).length = text.length := List.length_map _

/-! ## Keywords -/

/-- A keyword with a blank behind it is found. -/
theorem afterKeyword?_append {keyword : String} {word g rest : List Char}
    (hword : lowered word = keyword.toList) (hg : Blanks g) (hgne : g ≠ []) :
    afterKeyword? keyword (word ++ (g ++ rest)) = some (rest.dropWhile isBlank) := by
  obtain ⟨c, g, rfl⟩ := List.exists_cons_of_ne_nil hgne
  have hlength : keyword.length = word.length := by
    rw [← String.length_toList, ← hword, length_lowered]
  have hc := hg c List.mem_cons_self
  have hdrop : (g ++ rest).dropWhile isBlank = rest.dropWhile isBlank :=
    List.dropWhile_append_of_pos fun x hx => hg x (List.mem_cons_of_mem _ hx)
  unfold afterKeyword?
  dsimp only
  rw [hlength, List.take_left, List.drop_left, hword]
  simp [hc, hdrop]

/-- Where a keyword is found, it stands in front with a blank behind it. -/
theorem exists_of_afterKeyword? {keyword : String} {text rest : List Char}
    (h : afterKeyword? keyword text = some rest) :
    ∃ word c more, text = word ++ c :: more ∧ lowered word = keyword.toList ∧ isBlank c = true := by
  unfold afterKeyword? at h
  dsimp only at h
  split at h
  · rename_i hword
    split at h
    · rename_i c more hmore
      split at h
      · rename_i hc
        refine ⟨text.take keyword.length, c, more, ?_, by simpa using hword, hc⟩
        rw [← hmore, List.take_append_drop]
      · cases h
    · cases h
  · cases h

/-- Behind a keyword, only it and blanks are dropped. -/
theorem append_of_afterKeyword? {keyword : String} {text rest : List Char}
    (h : afterKeyword? keyword text = some rest) :
    ∃ front, text = front ++ rest ∧ ∀ c ∈ front, c.toLower ∈ keyword.toList ∨ isBlank c = true := by
  unfold afterKeyword? at h
  dsimp only at h
  split at h
  · rename_i hword
    split at h
    · rename_i c more hmore
      split at h
      · rename_i hc
        cases h
        refine ⟨text.take keyword.length ++ c :: more.takeWhile isBlank, ?_, ?_⟩
        · rw [List.append_assoc, List.cons_append, List.takeWhile_append_dropWhile, ← hmore,
            List.take_append_drop]
        · intro x hx
          rcases List.mem_append.mp hx with hx | hx
          · rw [← beq_iff_eq.mp hword]
            exact Or.inl (List.mem_map_of_mem hx)
          · rcases List.mem_cons.mp hx with rfl | hx
            · exact Or.inr hc
            · exact Or.inr (List.mem_takeWhile_imp hx)
      · cases h
    · cases h
  · cases h

/-- A keyword is not found where the characters in front are another word, or no blank follows it. The
predicate `p` tells the characters of words. -/
theorem afterKeyword?_eq_none {keyword : String} {p : Char → Bool} {word tail : List Char}
    (hkeyword : ∀ c, c.toLower ∈ keyword.toList → p c = true)
    (hblank : ∀ c, isBlank c = true → p c = false) (hword : ∀ c ∈ word, p c = true)
    (htail : ∀ c, tail.head? = some c → p c = false)
    (hother : lowered word = keyword.toList → ∀ c, tail.head? = some c → isBlank c = false) :
    afterKeyword? keyword (word ++ tail) = none := by
  by_contra hsome
  obtain ⟨rest, hrest⟩ := Option.ne_none_iff_exists'.mp hsome
  obtain ⟨found, c, more, htext, hfound, hc⟩ := exists_of_afterKeyword? hrest
  have hchars : ∀ x ∈ found, p x = true := by
    intro x hx
    refine hkeyword x ?_
    rw [← hfound]
    exact List.mem_map_of_mem hx
  -- Both are the longest front of characters of words, so they are the same.
  have hfront : (word ++ tail).takeWhile p = word := by
    rw [List.takeWhile_append_of_pos hword]
    cases tail with
    | nil => simp
    | cons x tail => simp [htail x rfl]
  have hsame : (word ++ tail).takeWhile p = found := by
    rw [htext, List.takeWhile_append_of_pos hchars]
    simp [hblank c hc]
  obtain rfl : word = found := hfront.symm.trans hsame
  obtain rfl : tail = c :: more := List.append_cancel_left htext
  rw [hother hfound c rfl] at hc
  cases hc

end FacadeStubs
