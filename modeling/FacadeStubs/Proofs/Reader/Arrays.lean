import FacadeStubs.Proofs.Reader.Parts
import FacadeStubs.Proofs.Reader.Rows

/-!
# Reading arrays

An array is written as the word for it and its entries in parentheses: each one a key, an arrow and a
value, with a comma behind it. Wherever an expression is expected, it is read if its keys and its values
are, and it cannot be read if one of them cannot.

Results:
* `decides_arrayElement`, `decides_arrayElements`: one entry, and all entries of an array.
* `sound_array`: arrays.
* `readsAs_array`: arrays of constants.
-/
namespace FacadeStubs.Php

open Lexical Reader

variable {source : Bytes} {b long : Bool} {n : Nat} {u g e : Bytes}

/-- Gaps hold no stretches outside the tags. -/
theorem reads_interpolations {attributes : Bool} (hg : IsGap g) :
    Reads source b (interpolations attributes) g BeginsToken (· = []) :=
  fun _ _ _ hr hu => ⟨[], hg.run_interpolations hu hr attributes, rfl⟩

/-! ## Entries -/

/-- An entry of an array as it is written, behind the blanks that part it from what comes before. -/
structure ArrayLine where
  key : Part
  /-- The blanks between the arrow and the value. -/
  blanks : Bytes
  value : Part

namespace ArrayLine

def bytes (l : ArrayLine) : Bytes := l.key.bytes ++ 32 :: 61 :: 62 :: (l.blanks ++ l.value.bytes)

def good (l : ArrayLine) : Prop := l.key.good ∧ l.value.good

structure Sound (l : ArrayLine) : Prop where
  blanks : l.blanks.all isSpace = true
  key : l.key.Sound
  value : l.value.Sound

end ArrayLine

/-- The node of an entry. -/
structure Node.IsEntry (x : Node) (source : Bytes) (l : ArrayLine) : Prop where
  kind : x.kind = .arrayElement
  parts : ∃ y z, x.children = [y, z] ∧ l.key.post source y ∧ l.value.post source z

theorem closes_arrow (w : Bytes) : Closes Strength.any (32 :: 61 :: 62 :: w) := by
  have htoken : BeginsToken (61 :: 62 :: w) := beginsToken_solid rfl
  have hgap : (32 :: 61 :: 62 :: w).drop (gaps (32 :: 61 :: 62 :: w)) = 61 :: 62 :: w := by
    rw [gaps_space rfl, htoken.gaps]
    rfl
  have hword : wordAt (61 :: 62 :: w) = "" := wordAt_boundary (boundary_cons rfl)
  have htest : wordAt (61 :: 62 :: w) ≠ "instanceof" := by rw [hword]; decide
  refine ⟨⟨boundary_cons rfl, by simp, ?_⟩, fun o ho => ?_⟩
  · rw [hgap]
    exact ⟨rfl, rfl, rfl, rfl, rfl, htest, rfl⟩
  · rw [hgap, operatorAt?, hword] at ho
    cases ho

theorem decides_arrayElement {l : ArrayLine} (h : l.Sound) (hg : IsGap g) (hn : l.bytes.length ≤ n) :
    Decides source false (arrayElement (Grammar.upTo long (n + 1))) (g ++ l.bytes)
      (Closes Strength.any) (fun x => x.IsEntry source l) l.good := by
  have hbytes : l.bytes = l.key.bytes ++ ([32] ++ ([] ++ [61, 62] ++ (l.blanks ++ l.value.bytes))) := by
    simp [ArrayLine.bytes]
  have hkey : l.key.bytes.length ≤ n := by
    simp [hbytes] at hn
    omega
  have hvalue : l.value.bytes.length ≤ n := by
    simp [hbytes] at hn
    omega
  have harrow : ∀ w, BeginsToken (61 :: 62 :: w) := fun w => beginsToken_solid rfl
  have hopens : ∀ u, beginsWith "..." (l.key.bytes ++ 32 :: 61 :: 62 :: u) = false ∧
      beginsWith "&" (l.key.bytes ++ 32 :: 61 :: 62 :: u) = false := fun u => by
    have hmarks := h.key.opens _ (closes_arrow u)
    simp only [marksElement, Bool.or_eq_false_iff] at hmarks
    exact ⟨hmarks.1.1.1, hmarks.1.1.2⟩
  rw [hbytes]
  unfold arrayElement
  refine (reads_openGap hg).thenDecides (fun _ _ => Decides.position fun start => ?_)
    fun u _ => by simpa using h.key.begins _
  refine Decides.peek (p := fun w => beginsWith "..." w = false ∧ beginsWith "&" w = false)
    (fun c u hr _ => ⟨_, run_remaining, by simpa [hr] using hopens (l.blanks ++ (l.value.bytes ++ u))⟩)
    fun w hw => ?_
  rw [if_neg (by simp [hw.1]), if_neg (by simp [hw.2])]
  refine (h.key.decides hkey).bind (fun y hy => ?_) fun u _ => by simpa using closes_arrow _
  refine Decides.look (a := true) (fun c u hr _ => ?_) ?_
  · have hnext : Next c.rest (61 :: 62 :: (l.blanks ++ (l.value.bytes ++ u))) := by
      rw [hr]
      simpa using next_append (isGap_spaces (g := [32]) rfl)
        (harrow (l.blanks ++ (l.value.bytes ++ u)))
    rw [hnext.run_thenIs]
    rfl
  rw [if_pos rfl]
  refine (reads_interpolations (isGap_spaces (g := [32]) rfl)).thenDecides ?_ fun u _ => by simpa using harrow _
  rintro before rfl
  have harrowRead : Reads source false (symbol "=>") ([] ++ [61, 62]) anyRest fun _ => True :=
    reads_symbol .nil rfl (fun _ => rfl) fun u _ => harrow u
  refine harrowRead.thenDecides (fun _ _ => ?_) fun _ _ => trivial
  refine (reads_interpolations (isGap_spaces h.blanks)).thenDecides ?_ fun u _ => h.value.begins u
  rintro behind rfl
  refine Decides.peek (p := fun w => beginsWith "&" w = false) (fun c u hr hu => ?_) fun w hw => ?_
  · have hmarks := h.value.opens u hu
    simp only [marksElement, Bool.or_eq_false_iff] at hmarks
    exact ⟨_, run_remaining, by rw [hr]; exact hmarks.1.1.2⟩
  simp only [hw, Bool.false_eq_true, if_false]
  refine (h.value.decides hvalue).finish fun z hz => ?_
  refine (reads_nodeFrom .arrayElement start _).mono (fun _ hu => hu) fun x hx => ?_
  exact ⟨hx.1, y, z, by simpa using hx.2, hy, hz⟩

/-! ## Elements -/

/-- What follows an element: the comma behind it, or the end of the array. -/
def EndsElement (e u : Bytes) : Prop := ∃ w, u = 44 :: w ∨ u = e ++ 41 :: w

theorem next_end (he : IsGap e) (w : Bytes) : Next (e ++ 41 :: w) (41 :: w) :=
  next_append he (beginsToken_solid rfl)

/-- Nothing goes on an element. -/
theorem EndsElement.closes (he : IsGap e) (hu : EndsElement e u) : Closes Strength.any u := by
  obtain ⟨w, rfl | rfl⟩ := hu
  · exact closes_closer rfl
  · exact closes_gap he rfl

/-- A place between commas where nothing stands. -/
theorem reads_slot_nil {entry : Reader Node} (he : IsGap e) :
    Reads source b (slots.slot ")" entry) [] (EndsElement e) (· = []) := by
  rintro c u hc hr ⟨w, hu⟩
  have hnext : ∃ v, Next c.rest v ∧ (beginsWith "," v || beginsWith ")" v) = true := by
    rw [hr, List.nil_append]
    obtain rfl | rfl := hu
    · exact ⟨44 :: w, next_token (beginsToken_solid rfl), rfl⟩
    · exact ⟨41 :: w, next_end he w, rfl⟩
  obtain ⟨v, hnext, hv⟩ := hnext
  refine ⟨[], ?_, rfl⟩
  unfold slots.slot
  rw [run_bind_some hnext.run_openAhead, if_pos hv]
  rfl

theorem decides_slot {l : ArrayLine} (h : l.Sound) (hg : IsGap g) (he : IsGap e)
    (hn : l.bytes.length ≤ n) :
    Decides source false (slots.slot ")" (arrayElement (Grammar.upTo long (n + 1)))) (g ++ l.bytes)
      (EndsElement e) (fun xs => ∃ x, xs = [x] ∧ x.IsEntry source l) l.good := by
  unfold slots.slot
  refine Decides.peek (p := fun w => (beginsWith "," w || beginsWith ")" w) = false)
    (fun c u hr _ => ?_) fun w hw => ?_
  · have hnext : Next c.rest (l.bytes ++ u) := by
      rw [hr, List.append_assoc]
      refine next_append hg ?_
      simpa [ArrayLine.bytes] using h.key.begins _
    refine ⟨_, hnext.run_openAhead, ?_⟩
    have hmarks := h.key.opens _ (closes_arrow (l.blanks ++ (l.value.bytes ++ u)))
    simp only [marksElement, Bool.or_eq_false_iff] at hmarks
    simp [ArrayLine.bytes, hmarks.1.2, hmarks.2]
  · rw [hw, if_neg (by simp)]
    exact ((decides_arrayElement h hg hn).mono (fun _ hu => hu.closes he) fun _ hx => hx).yields
      fun x hx => ⟨x, rfl, hx⟩

/-- The bytes of all entries, a comma behind each of them. -/
def lineBytes (g : Bytes) (lines : List ArrayLine) : Bytes :=
  lines.flatMap fun l => g ++ l.bytes ++ [44]

/-- The entries behind the first one, with their commas in front, and the comma behind the last. -/
def lineRow (source : Bytes) (g : Bytes) (lines : List ArrayLine) : Row (List Node) :=
  lines.map (fun l => (44 :: (g ++ l.bytes), fun xs => ∃ x, xs = [x] ∧ x.IsEntry source l)) ++
    [([44], (· = []))]

theorem mem_lineRow {lines : List ArrayLine} {i : Bytes × (List Node → Prop)} :
    i ∈ lineRow source g lines ↔ (∃ l ∈ lines, i = (44 :: (g ++ l.bytes),
      fun xs => ∃ x, xs = [x] ∧ x.IsEntry source l)) ∨ i = ([44], (· = [])) := by
  simp [lineRow, eq_comm]

theorem comma_lineRow {lines : List ArrayLine} {i : Bytes × (List Node → Prop)}
    (hi : i ∈ lineRow source g lines) : ∃ v, i.1 = 44 :: v := by
  rcases mem_lineRow.1 hi with ⟨l, -, rfl⟩ | rfl
  · exact ⟨_, rfl⟩
  · exact ⟨_, rfl⟩

theorem rowBytes_lineRow (source : Bytes) (l : ArrayLine) (lines : List ArrayLine) :
    g ++ l.bytes ++ rowBytes (lineRow source g lines) = lineBytes g (l :: lines) := by
  induction lines generalizing l with
  | nil => simp [lineRow, rowBytes, lineBytes]
  | cons l' lines ih =>
    have hrest := ih l'
    simp only [lineRow, rowBytes, lineBytes, List.map_cons, List.cons_append, List.flatMap_cons,
      List.append_assoc, List.nil_append] at hrest ⊢
    rw [hrest]

theorem forall₂_of_gives {lines : List ArrayLine} {xss : List (List Node)}
    (h : Gives (lineRow source g lines) xss) :
    List.Forall₂ (fun x l => x.IsEntry source l) xss.flatten lines := by
  induction lines generalizing xss with
  | nil =>
    obtain _ | ⟨hxs, hnil⟩ := h
    cases hnil
    obtain rfl := hxs
    exact .nil
  | cons l lines ih =>
    obtain _ | ⟨⟨x, hxs, hx⟩, hrest⟩ := h
    obtain rfl := hxs
    exact .cons hx (ih hrest)

section
variable {lines : List ArrayLine}

/-- An entry behind another one, with its comma in front. -/
theorem decides_nextSlot {l : ArrayLine} (h : l.Sound) (hg : IsGap g) (he : IsGap e)
    (hn : l.bytes.length ≤ n) :
    Decides source false (comma *> slots.slot ")" (arrayElement (Grammar.upTo long (n + 1))))
      (44 :: (g ++ l.bytes)) (EndsElement e) (fun xs => ∃ x, xs = [x] ∧ x.IsEntry source l) l.good :=
  reads_comma.thenDecides (fun _ _ => decides_slot h hg he hn) fun _ _ => trivial

/-- The comma behind the last entry. -/
theorem reads_lastSlot {entry : Reader Node} (he : IsGap e) :
    Reads source false (comma *> slots.slot ")" entry) [44] (EndsElement e) (· = []) := by
  have hbytes : ([44] : Bytes) = [44] ++ [] := rfl
  rw [hbytes]
  exact reads_comma.bind (fun _ _ => reads_slot_nil he) fun _ _ => trivial

theorem endsElement_lineRow (lines : List ArrayLine) (u : Bytes) :
    EndsElement e (rowBytes (lineRow source g lines) ++ u) := by
  cases lines with
  | nil => exact ⟨u, .inl rfl⟩
  | cons l' lines => exact ⟨_, .inl rfl⟩

theorem endsElement_tail {i : Bytes × (List Node → Prop)} (hi : i ∈ (lineRow source g lines).tail)
    (w : Bytes) : EndsElement e (i.1 ++ w) := by
  obtain ⟨v, hv⟩ := comma_lineRow (List.mem_of_mem_tail hi)
  exact ⟨v ++ w, .inl (by rw [hv]; rfl)⟩

/-- No entry begins where an array ends. -/
theorem stops_nextSlot {entry : Reader Node} (he : IsGap e) (w : Bytes) :
    Stops source false (comma *> slots.slot ")" entry) (e ++ 41 :: w) := by
  intro c hc hr
  have hcomma : comma.run c = none := by
    unfold comma
    rw [run_bind_some (Next.run_thenIs (by rw [hr]; exact next_end he w) _)]
    exact run_bind_none (run_require_false rfl)
  exact run_bind_none hcomma

theorem reads_noElements {entry : Reader Node} (he : IsGap e) :
    Reads source false (slots ")" entry) [] (fun u => ∃ w, u = e ++ 41 :: w) (· = []) := by
  have hmore : Reads source false (many (comma *> slots.slot ")" entry)) []
      (fun u => ∃ w, u = e ++ 41 :: w) (· = []) := by
    rintro c _ hc hr ⟨w, rfl⟩
    exact ⟨[], run_many_none (stops_nextSlot he w hc hr), rfl⟩
  unfold slots
  refine Reads.finish ((reads_slot_nil he).mono ?_ fun _ hx => hx) ?_
  · rintro u ⟨w, hw⟩
    exact ⟨w, .inr hw⟩
  rintro first rfl
  refine Reads.finish hmore ?_
  rintro more rfl
  exact reads_pure rfl

theorem reads_elements (h : ∀ l ∈ lines, l.Sound) (hg : IsGap g) (he : IsGap e)
    (hn : ∀ l ∈ lines, l.bytes.length ≤ n) (hgood : ∀ l ∈ lines, l.good) :
    Reads source false (slots ")" (arrayElement (Grammar.upTo long (n + 1)))) (lineBytes g lines)
      (fun u => ∃ w, u = e ++ 41 :: w)
      fun xs => List.Forall₂ (fun x l => x.IsEntry source l) xs lines := by
  cases lines with
  | nil => exact (reads_noElements he).mono (fun _ hu => hu) fun xs hxs => hxs ▸ .nil
  | cons l lines =>
    rw [List.forall_mem_cons] at h hn hgood
    have hmore : Reads source false
        (many (comma *> slots.slot ")" (arrayElement (Grammar.upTo long (n + 1)))))
        (rowBytes (lineRow source g lines)) (fun u => ∃ w, u = e ++ 41 :: w)
        (Gives (lineRow source g lines)) := by
      refine (reads_many (fun i hi => ?_) (fun i hi => ?_) fun i hi =>
        endsElement_tail (e := e) hi).mono ?_ fun _ has => has
      · obtain ⟨v, hv⟩ := comma_lineRow hi
        simp [hv]
      · rcases mem_lineRow.1 hi with ⟨l', hl', rfl⟩ | rfl
        · exact (decides_nextSlot (h.2 l' hl') hg he (hn.2 l' hl')).reads (hgood.2 l' hl')
        · exact reads_lastSlot he
      · rintro u ⟨w, rfl⟩
        exact ⟨⟨w, .inr rfl⟩, stops_nextSlot he w⟩
    rw [← rowBytes_lineRow source l lines]
    unfold slots
    refine ((decides_slot h.1 hg he hn.1).reads hgood.1).bind ?_ fun u _ => endsElement_lineRow lines u
    rintro first ⟨x, rfl, hx⟩
    exact hmore.yields fun xss hxss => .cons hx (forall₂_of_gives hxss)

/-- Entries of which one behind the first cannot be read are read up to the comma in front of an
entry, or behind the last one. -/
theorem run_slots_stuck {l : ArrayLine} (h : ∀ l' ∈ l :: lines, l'.Sound) (hg : IsGap g) (he : IsGap e)
    (hn : ∀ l' ∈ l :: lines, l'.bytes.length ≤ n) (hfirst : l.good) (hbad : ∃ l' ∈ lines, ¬ l'.good)
    {c : Cursor} (hc : c.Stands source false) (hr : c.rest = lineBytes g (l :: lines) ++ (e ++ 41 :: u)) :
    ∃ xs k v, (slots ")" (arrayElement (Grammar.upTo long (n + 1)))).run c = some (xs, c.past k) ∧
      (c.past k).rest = 44 :: v := by
  rw [List.forall_mem_cons] at h hn
  have hr' : c.rest = (g ++ l.bytes) ++ (rowBytes (lineRow source g lines) ++ (e ++ 41 :: u)) := by
    rw [hr, ← rowBytes_lineRow source l lines]
    simp
  have hslot := @decides_slot source long n g e l h.1 hg he hn.1
  obtain ⟨first, hrun, -⟩ := hslot.reads hfirst hc hr' (endsElement_lineRow lines _)
  have hitems : ∀ i ∈ lineRow source g lines,
      Reads source false (comma *> slots.slot ")" (arrayElement (Grammar.upTo long (n + 1)))) i.1
        (EndsElement e) i.2 ∨
      Breaks source false (comma *> slots.slot ")" (arrayElement (Grammar.upTo long (n + 1)))) i.1
        (EndsElement e) := by
    intro i hi
    rcases mem_lineRow.1 hi with ⟨l', hl', rfl⟩ | rfl
    · have hnext := @decides_nextSlot source long n g e l' (h.2 l' hl') hg he (hn.2 l' hl')
      by_cases hgood : l'.good
      · exact .inl (hnext.reads hgood)
      · exact .inr (hnext.breaks hgood)
    · exact .inl (reads_lastSlot he)
  have hbroken : ∃ i ∈ lineRow source g lines, Breaks source false
      (comma *> slots.slot ")" (arrayElement (Grammar.upTo long (n + 1)))) i.1 (EndsElement e) := by
    obtain ⟨l', hl', hnot⟩ := hbad
    exact ⟨_, mem_lineRow.2 (.inl ⟨l', hl', rfl⟩),
      (decides_nextSlot (h.2 l' hl') hg he (hn.2 l' hl')).breaks hnot⟩
  have hends : EndsElement e (e ++ 41 :: u) := ⟨u, .inr rfl⟩
  obtain ⟨xss, k, hmore, i, hi, v, hv⟩ := run_manyWithin_stuck hitems (fun i hi => endsElement_tail hi)
    hbroken (c.size + 1) (hc.past (g ++ l.bytes).length) (Cursor.past_rest_append hr') hends
  obtain ⟨w, hw⟩ := comma_lineRow hi
  refine ⟨first ++ xss.flatten, (g ++ l.bytes).length + k, w ++ v, ?_, ?_⟩
  · unfold slots
    rw [run_bind_some hrun]
    have hmany : (many (comma *> slots.slot ")" (arrayElement (Grammar.upTo long (n + 1))))).run
        (c.past (g ++ l.bytes).length) = _ := (run_bind_some run_turns).trans hmore
    rw [run_bind_some hmany, Cursor.past_past]
    rfl
  · rw [← Cursor.past_past, hv, hw]
    rfl

/-- The entries of an array in parentheses can be read exactly if each of them can. -/
theorem decides_arrayElements (h : ∀ l ∈ lines, l.Sound) (hg : IsGap g) (he : IsGap e)
    (hn : ∀ l ∈ lines, l.bytes.length ≤ n) :
    Decides source b (arrayElements (Grammar.upTo long (n + 1)) "(" ")")
      ([32] ++ 40 :: (lineBytes g lines ++ (e ++ [41]))) anyRest
      (fun xs => List.Forall₂ (fun x l => x.IsEntry source l) xs lines) (∀ l ∈ lines, l.good) := by
  have hblank : IsGap [32] := isGap_spaces rfl
  refine ⟨fun hgood => reads_between hblank rfl rfl he rfl rfl (reads_elements h hg he hn hgood),
    fun hbad u _ => ?_⟩
  have hopen : Reads source b (symbol "(") ([32] ++ [40]) anyRest fun _ => True :=
    reads_sign hblank rfl rfl
  have hrest : Stops source b (do
      let value ← inner (slots ")" (arrayElement (Grammar.upTo long (n + 1))))
      symbol ")"
      return value) (lineBytes g lines ++ (e ++ 41 :: u)) := by
    obtain ⟨l, lines, rfl⟩ := List.exists_cons_of_ne_nil (l := lines) fun hnil => hbad (by simp [hnil])
    by_cases hfirst : l.good
    · refine stops_inner_bind fun c hc hr => ?_
      have hother : ∃ l' ∈ lines, ¬ l'.good := by
        by_contra hall
        refine hbad (List.forall_mem_cons.2 ⟨hfirst, fun l' hl' => ?_⟩)
        by_contra hnot
        exact hall ⟨l', hl', hnot⟩
      obtain ⟨xs, k, v, hrun, hv⟩ := @run_slots_stuck source long n u g e lines l h hg he hn hfirst
        hother c hc hr
      refine ⟨xs, k, hrun, Stops.bind ?_⟩
      have hdrop : (lineBytes g (l :: lines) ++ (e ++ 41 :: u)).drop k = 44 :: v := by
        rw [← hr]
        exact hv
      rw [hdrop]
      exact stops_symbol (next_token (beginsToken_solid rfl)) rfl
    · have hslot : Breaks source false (slots.slot ")" (arrayElement (Grammar.upTo long (n + 1))))
          (g ++ l.bytes) (EndsElement e) :=
        (decides_slot (h l List.mem_cons_self) hg he (hn l List.mem_cons_self)).breaks hfirst
      have hstop := hslot _ (@endsElement_lineRow source g e lines (e ++ 41 :: u))
      rw [← List.append_assoc, rowBytes_lineRow] at hstop
      exact (Stops.withTagEnds hstop.bind).bind
  simpa [arrayElements, between] using hopen.stops trivial fun _ _ => hrest

end

/-! ## Arrays -/

/-- The bytes of an array; `g` stands in front of each entry and `e` behind the last one. -/
def arrayBytes (g e : Bytes) (lines : List ArrayLine) : Bytes :=
  [97, 114, 114, 97, 121] ++ ([32] ++ 40 :: (lineBytes g lines ++ (e ++ [41])))

theorem length_le_arrayBytes {l : ArrayLine} {lines : List ArrayLine} (hl : l ∈ lines) :
    l.bytes.length + 2 ≤ (arrayBytes g e lines).length := by
  obtain ⟨before, after, rfl⟩ := List.append_of_mem hl
  simp [arrayBytes, lineBytes]
  omega

/-- The node of an array. -/
structure Node.IsLongArray (x : Node) (source : Bytes) (lines : List ArrayLine) : Prop where
  kind : x.kind = .longArray
  entries : List.Forall₂ (fun y l => y.IsEntry source l) x.children lines

/-- An array as a part of another one. -/
def arrayPart (g e : Bytes) (lines : List ArrayLine) : Part where
  bytes := arrayBytes g e lines
  post := fun source x => x.IsLongArray source lines
  good := ∀ l ∈ lines, l.good

section
variable {lines : List ArrayLine}

/-- The word for an array and its entries in parentheses. -/
theorem decides_arrayForm (h : ∀ l ∈ lines, l.Sound) (hg : IsGap g) (he : IsGap e)
    (hn : ∀ l ∈ lines, l.bytes.length ≤ n) :
    Decides source false (nodeOf .longArray do
      keyword "array"
      arrayElements (Grammar.upTo long (n + 1)) "(" ")") (arrayBytes g e lines) anyRest
      (fun x => x.IsLongArray source lines) (∀ l ∈ lines, l.good) := by
  have hname : IsName [97, 114, 114, 97, 121] := by decide
  have hkeyword : Reads source false (keyword "array") [97, 114, 114, 97, 121] Boundary fun _ => True :=
    reads_keyword (g := []) .nil hname rfl
  have hform := hkeyword.thenDecides
    (fun _ _ => @decides_arrayElements source false long n g e lines h hg he hn)
    fun _ _ => boundary_cons rfl
  exact (decides_nodeOf .nil hform fun u _ => beginsToken_solid rfl).mono (fun _ hu => hu)
    fun x hx => ⟨hx.1, hx.2.2⟩

/-- An array is read by the word for it. -/
theorem primary_array {grammar : Grammar} {c : Cursor} {w : Bytes}
    (hr : c.rest = [97, 114, 114, 97, 121] ++ 32 :: w) : (primary grammar).run c = (do
      return .value (← nodeOf .longArray do
        keyword "array"
        arrayElements grammar "(" ")") : Reader Operand).run c := by
  have hname : IsName [97, 114, 114, 97, 121] := by decide
  have hword : wordAt c.rest = "array" := by
    rw [hr, wordAt_append hname (boundary_cons rfl)]
    rfl
  have hlength : nameLength c.rest ≠ 0 := by
    rw [hr, nameLength_append hname (boundary_cons rfl)]
    decide
  rw [primary_word hr rfl hlength]
  unfold wordOperand
  rw [hword, run_bind_some run_position]
  rfl

/-- An array is read exactly if all its keys and values can be read. -/
theorem sound_array (h : ∀ l ∈ lines, l.Sound) (hg : IsGap g) (he : IsGap e) :
    (arrayPart g e lines).Sound where
  begins := fun u => beginsToken_solid rfl
  opens := fun u _ => rfl
  decides := by
    intro long n source hn
    obtain ⟨m, rfl⟩ : ∃ m, n = m + 1 := ⟨n - 1, by
      have hpos : 0 < (arrayBytes g e lines).length := by simp [arrayBytes]
      have hle : (arrayBytes g e lines).length ≤ n := hn
      omega⟩
    have hlines : ∀ l ∈ lines, l.bytes.length ≤ m := fun l hl => by
      have hlength := length_le_arrayBytes (g := g) (e := e) hl
      have hle : (arrayBytes g e lines).length ≤ m + 1 := hn
      omega
    have hform := @decides_arrayForm source long m g e lines h hg he hlines
    have hword : ∀ {c : Cursor} {u : Bytes}, c.rest = arrayBytes g e lines ++ u →
        c.rest = [97, 114, 114, 97, 121] ++ 32 :: 40 :: (lineBytes g lines ++ (e ++ 41 :: u)) :=
      fun hr => by simp [hr, arrayBytes]
    refine ⟨fun hgood c u hc hr hu => ?_, fun hbad u hu c hc hr => ?_⟩
    · obtain ⟨x, hrun, hx⟩ := hform.reads hgood hc hr trivial
      have hrest : (c.past (arrayBytes g e lines).length).rest = u := Cursor.past_rest_append hr
      have hsettled := hu.follows.settled
      rw [← hrest] at hsettled
      have hoperand : (operandWith (Grammar.upTo long (m + 1))).run c =
          some (.value x, c.past (arrayBytes g e lines).length) := by
        refine operandWith_value hc.mode hsettled ?_
        rw [primary_array (hword hr), run_bind_some hrun]
        rfl
      refine ⟨x, ?_, hx⟩
      unfold expressionWith
      rw [run_bind_some hoperand, run_bind_some (run_completed (o := .value x)
        (c := c.past (arrayBytes g e lines).length) hc.mode hsettled nofun nofun),
        run_bind_some run_turns]
      exact run_operationsWithin_closes (c := c.past (arrayBytes g e lines).length) hc.mode hsettled
        (by rw [hrest]; exact hu.loose)
    · refine run_bind_none (run_bind_none ?_)
      rw [primary_array (hword hr)]
      exact run_bind_none (hform.breaks hbad u trivial hc hr)

end

/-! ## Arrays of constants -/

/-- An entry of constants as it is written, with the constants that its parts are read as. -/
structure ConstantLine where
  key : Bytes
  blanks : Bytes
  value : Bytes
  entry : Literal × Literal

/-- The entry as one of any parts. -/
def ConstantLine.line (l : ConstantLine) : ArrayLine :=
  ⟨constantPart l.key l.entry.1, l.blanks, constantPart l.value l.entry.2⟩

structure ConstantLine.Sound (l : ConstantLine) : Prop where
  line : l.line.Sound
  known : l.entry.2.isExpr = false

/-- An expression that is kept as no source text is neither unpacked nor a reference. -/
theorem kind_of_constantOf {scope : ClassScope} {x : Node}
    (h : (constantOf source scope x).isExpr = false) : x.kind ≠ .byReference := by
  obtain ⟨kind, start, stop, children⟩ := x
  rintro rfl
  simp [constantOf, Literal.isExpr] at h

theorem arrayEntries?_of_entries {scope : ClassScope} {xs : List Node} {lines : List ConstantLine}
    (h : List.Forall₂ (fun x l => x.IsEntry source l) xs (lines.map ConstantLine.line))
    (hknown : ∀ l ∈ lines, l.entry.2.isExpr = false) :
    arrayEntries? source scope xs = some (lines.map fun l => .pair l.entry.1 l.entry.2) := by
  rw [List.forall₂_map_right_iff] at h
  induction h with
  | nil => rfl
  | @cons x l xs lines hx _ ih =>
    rw [List.forall_mem_cons] at hknown
    obtain ⟨y, z, hchildren, hy, hz⟩ := hx.parts
    have hkey : constantOf source scope y = l.entry.1 := hy scope
    have hvalue : constantOf source scope z = l.entry.2 := hz scope
    obtain ⟨kind, start, stop, children⟩ := x
    obtain rfl : children = [y, z] := hchildren
    have hkind : z.kind ≠ .byReference := kind_of_constantOf (by rw [hvalue]; exact hknown.1)
    rw [arrayEntries?, if_neg (by simpa using hkind), ih hknown.2, hkey, hvalue]
    rfl

/-- An array is read as an array of what its keys and its values are read as. -/
theorem readsAs_array {lines : List ConstantLine} (h : ∀ l ∈ lines, l.Sound) (hg : IsGap g)
    (he : IsGap e) : ReadsAs (arrayBytes g e (lines.map ConstantLine.line))
      (.array (lines.map fun l => .pair l.entry.1 l.entry.2)) := by
  have hsound : ∀ l ∈ lines.map ConstantLine.line, l.Sound :=
    List.forall_mem_map.2 fun l hl => (h l hl).line
  refine (sound_array hsound hg he).imp rfl (fun source x hx scope => ?_) (iff_of_true ?_ trivial)
  · obtain ⟨kind, start, stop, children⟩ := x
    obtain rfl : kind = .longArray := hx.kind
    have hchildren : arrayEntries? source scope children = _ :=
      arrayEntries?_of_entries hx.entries fun l hl => (h l hl).known
    simp only [constantOf, hchildren, Option.map_some, Option.getD_some]
  · exact List.forall_mem_map.2 fun _ _ => ⟨trivial, trivial⟩

end FacadeStubs.Php
