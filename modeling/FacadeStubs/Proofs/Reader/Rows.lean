import FacadeStubs.Proofs.Reader.Reading
import Mathlib.Data.List.Forall2

/-!
# Rows of texts

Texts one behind the other, with gaps or with commas between them. If one text of a row cannot be
read, the readers of the row stop in front of one that they cannot read, and what closes the row is
not found there.

Results:
* `reads_many`, `reads_openList`: a row is read if all its texts are.
* `decides_between_many`, `decides_between_openList`: between two signs, a row cannot be read if one
  of its texts cannot.
* `decides_lines`: the same of texts with line breaks between them.
-/
namespace FacadeStubs.Php

open Lexical Reader

/-! ## Texts one behind the other -/

section
variable {α : Type} {source : Bytes} {b : Bool} {r : Reader α}

/-- Texts, each with what holds of the value that it is read as. -/
abbrev Row (α : Type) := List (Bytes × (α → Prop))

/-- The bytes of a row without anything between its texts. -/
def rowBytes (items : Row α) : Bytes := items.flatMap Prod.fst

/-- The values of a row, one for each text. -/
def Gives (items : Row α) (as : List α) : Prop := List.Forall₂ (fun i a => i.2 a) items as

theorem Gives.all {items : Row α} {as : List α} {p : α → Prop} (h : Gives items as)
    (hp : ∀ i ∈ items, ∀ a, i.2 a → p a) : ∀ a ∈ as, p a := by
  induction h with
  | nil => simp
  | cons ha _ ih =>
    intro a hmem
    rcases List.mem_cons.1 hmem with rfl | hmem
    · exact hp _ (by simp) a ha
    · exact ih (fun i hi => hp i (by simp [hi])) a hmem

theorem length_le_rowBytes {items : Row α} (h : ∀ i ∈ items, i.1 ≠ []) :
    items.length ≤ (rowBytes items).length := by
  induction items with
  | nil => simp
  | cons i items ih =>
    have hi : 0 < i.1.length := List.length_pos_iff.2 (h i (by simp))
    have hrest := ih fun j hj => h j (by simp [hj])
    simp only [rowBytes, List.flatMap_cons, List.length_cons, List.length_append] at hrest ⊢
    omega

theorem run_manyWithin_row {ok : Bytes → Prop} {items : Row α}
    (h : ∀ i ∈ items, Reads source b r i.1 ok i.2) (hnext : ∀ i ∈ items.tail, ∀ w, ok (i.1 ++ w)) :
    ∀ {fuel : Nat} {c : Cursor} {u : Bytes}, items.length ≤ fuel → c.Stands source b →
      c.rest = rowBytes items ++ u → ok u → Stops source b r u →
      ∃ as, (manyWithin r fuel).run c = some (as, c.past (rowBytes items).length) ∧ Gives items as := by
  induction items with
  | nil =>
    intro fuel c u _ hc hr _ hstop
    exact ⟨[], run_manyWithin_none (hstop hc hr) fuel, .nil⟩
  | cons i items ih =>
    intro fuel c u hfuel hc hr hu hstop
    obtain ⟨fuel, rfl⟩ : ∃ k, fuel = k + 1 := ⟨fuel - 1, by simp at hfuel; omega⟩
    have hfuel' : items.length ≤ fuel := by simpa using hfuel
    have hr' : c.rest = i.1 ++ (rowBytes items ++ u) := by simp [hr, rowBytes]
    have hok : ok (rowBytes items ++ u) := by
      cases items with
      | nil => exact hu
      | cons j items => simpa [rowBytes] using hnext j (by simp) (items.flatMap Prod.fst ++ u)
    obtain ⟨a, hrun, ha⟩ := h i (by simp) hc hr' hok
    obtain ⟨as, hrest, has⟩ := ih (fun j hj => h j (by simp [hj]))
      (fun j hj => hnext j (List.mem_of_mem_tail hj)) hfuel' (hc.past i.1.length)
      (Cursor.past_rest_append hr') hu hstop
    refine ⟨a :: as, ?_, .cons ha has⟩
    rw [run_manyWithin_cons hrun hrest, Cursor.past_past]
    simp [rowBytes]

/-- Texts one behind the other. -/
theorem reads_many {ok : Bytes → Prop} {items : Row α} (hne : ∀ i ∈ items, i.1 ≠ [])
    (h : ∀ i ∈ items, Reads source b r i.1 ok i.2) (hnext : ∀ i ∈ items.tail, ∀ w, ok (i.1 ++ w)) :
    Reads source b (many r) (rowBytes items) (fun u => ok u ∧ Stops source b r u) (Gives items) := by
  intro c u hc hr hu
  have hfuel : items.length ≤ c.size + 1 := by
    have hlen := length_le_rowBytes hne
    have hfits := hc.toIn.fits
    rw [hr, List.length_append] at hfits
    omega
  exact run_manyWithin_row h hnext hfuel hc hr hu.1 hu.2

/-- A row with a text that breaks is read up to one of its texts. -/
theorem run_manyWithin_stuck {ok : Bytes → Prop} {items : Row α}
    (h : ∀ i ∈ items, Reads source b r i.1 ok i.2 ∨ Breaks source b r i.1 ok)
    (hnext : ∀ i ∈ items.tail, ∀ w, ok (i.1 ++ w)) (hbad : ∃ i ∈ items, Breaks source b r i.1 ok) :
    ∀ (fuel : Nat) {c : Cursor} {u : Bytes}, c.Stands source b → c.rest = rowBytes items ++ u →
      ok u → ∃ as k, (manyWithin r fuel).run c = some (as, c.past k) ∧
        ∃ i ∈ items, ∃ v, (c.past k).rest = i.1 ++ v := by
  induction items with
  | nil => simp at hbad
  | cons i items ih =>
    intro fuel c u hc hr hu
    have hr' : c.rest = i.1 ++ (rowBytes items ++ u) := by simp [hr, rowBytes]
    have hok : ok (rowBytes items ++ u) := by
      cases items with
      | nil => exact hu
      | cons j items => simpa [rowBytes] using hnext j (by simp) (items.flatMap Prod.fst ++ u)
    have hhere : ∀ {as : List α}, (manyWithin r fuel).run c = some (as, c) →
        ∃ as k, (manyWithin r fuel).run c = some (as, c.past k) ∧
          ∃ j ∈ i :: items, ∃ v, (c.past k).rest = j.1 ++ v := fun hrun =>
      ⟨_, 0, hrun, i, by simp, _, hr'⟩
    cases fuel with
    | zero => exact hhere rfl
    | succ fuel =>
      by_cases hi : Breaks source b r i.1 ok
      · exact hhere (run_manyWithin_none (hi _ hok hc hr') _)
      · obtain ⟨a, hrun, -⟩ := ((h i (by simp)).resolve_right hi) hc hr' hok
        obtain ⟨j, hj, hjbad⟩ := hbad
        have hj' : j ∈ items := by
          rcases List.mem_cons.1 hj with rfl | hj
          · exact absurd hjbad hi
          · exact hj
        obtain ⟨as, k, hrest, x, hx, v, hv⟩ := ih (fun j hj => h j (by simp [hj]))
          (fun j hj => hnext j (List.mem_of_mem_tail hj)) ⟨j, hj', hjbad⟩ fuel (hc.past i.1.length)
          (Cursor.past_rest_append hr') hu
        refine ⟨a :: as, i.1.length + k, ?_, x, by simp [hx], v, ?_⟩
        · rw [run_manyWithin_cons hrun hrest, Cursor.past_past]
        · rw [← Cursor.past_past]
          exact hv

/-- What follows something that is read up to some place cannot be read. -/
theorem stops_inner_bind {β : Type} {f : α → Reader β} {u : Bytes}
    (h : ∀ ⦃c : Cursor⦄, c.Stands source false → c.rest = u →
      ∃ a k, r.run c = some (a, c.past k) ∧ Stops source b (f a) (u.drop k)) :
    Stops source b (inner r >>= f) u := by
  intro c hc hr
  have hc' : Cursor.Stands { c with tagEnds := false } source false :=
    ⟨⟨hc.rest, hc.size⟩, rfl, hc.outside⟩
  obtain ⟨a, k, hrun, hstop⟩ := h hc' hr
  have hinner : (inner r).run c = _ := run_withTagEnds hrun
  rw [run_bind_some hinner]
  exact hstop ⟨(hc.toIn.past k), hc.mode, hc.outside⟩ (by rw [← hr]; rfl)

/-- The texts that follow an opening sign decide. -/
theorem decides_between_many {opening closing : String} {x y : UInt8} {g k : Bytes} {items : Row α}
    {good : Prop} (hg : IsGap g) (hx : isSolid x = true)
    (ho : opening.toList = [Char.ofNat x.toNat]) (hk : IsGap k)
    (hy : isSolid y = true) (hc : closing.toList = [Char.ofNat y.toNat])
    (h : ∀ i ∈ items, i.1 ≠ [] ∧
      (Reads source false r i.1 anyRest i.2 ∨ Breaks source false r i.1 anyRest))
    (hbegins : ∀ i ∈ items, ∀ u, ∃ w, Next (i.1 ++ u) w ∧ beginsWith closing w = false)
    (hstop : ∀ w, Stops source false r (k ++ y :: w))
    (hgood : good → ∀ i ∈ items, Reads source false r i.1 anyRest i.2)
    (hbad : ¬ good → ∃ i ∈ items, Breaks source false r i.1 anyRest) :
    Decides source b (between opening closing (many r)) (g ++ x :: (rowBytes items ++ (k ++ [y])))
      anyRest (Gives items) good := by
  constructor
  · intro hall
    refine reads_between hg hx ho hk hy hc ?_
    refine (reads_many (fun i hi => (h i hi).1) (hgood hall) fun _ _ _ => trivial).mono ?_
      fun _ has => has
    rintro u ⟨w, rfl⟩
    exact ⟨trivial, hstop w⟩
  · intro hnot u _
    have hopen : Reads source b (symbol opening) (g ++ [x]) anyRest fun _ => True :=
      reads_sign hg hx ho
    have hrest : Stops source b (do
        let value ← inner (many r)
        symbol closing
        return value) (rowBytes items ++ (k ++ [y]) ++ u) := by
      refine stops_inner_bind fun c hc hr => ?_
      rw [List.append_assoc] at hr
      obtain ⟨as, j, hrun, i, hi, v, hv⟩ := run_manyWithin_stuck (fun i hi => (h i hi).2)
        (fun _ _ _ => trivial) (hbad hnot) (c.size + 1) hc hr trivial
      obtain ⟨w, hnext, hw⟩ := hbegins i hi v
      refine ⟨as, j, hrun, Stops.bind ?_⟩
      have hdrop : (rowBytes items ++ (k ++ [y]) ++ u).drop j = i.1 ++ v := by
        rw [List.append_assoc, ← hr]
        exact hv
      rw [hdrop]
      exact stops_symbol hnext hw
    simpa [between] using hopen.stops trivial fun _ _ => hrest

/-- What follows an entry of a list in parentheses. -/
def EndsEntry (u : Bytes) : Prop := ∃ w, u = 44 :: w ∨ u = 41 :: w

/-- The bytes of a list: a comma and a blank between two entries. -/
def listBytes : Row α → Bytes
  | [] => []
  | i :: items => i.1 ++ items.flatMap fun j => 44 :: 32 :: j.1

theorem stops_comma (u : Bytes) : Stops source b comma (41 :: u) := by
  intro c _ hr
  have hnext : Next c.rest (41 :: u) := by rw [hr]; exact next_token (beginsToken_solid rfl)
  unfold comma
  rw [run_bind_some (hnext.run_thenIs _)]
  exact run_bind_none (run_require_false rfl)

theorem reads_comma : Reads source b comma [44] anyRest fun _ => True := by
  unfold comma
  refine Reads.look (a := true) (fun c u hr _ => ?_) (Reads.look (a := ()) (fun c u _ _ => ?_) ?_)
  · have hnext : Next c.rest (44 :: u) := by rw [hr]; exact next_token (beginsToken_solid rfl)
    rw [hnext.run_thenIs]
    rfl
  · exact run_require_true rfl
  · exact reads_sign .nil rfl rfl

/-- Entries with commas between them, in front of the parenthesis that closes them. -/
theorem reads_openList {items : Row α}
    (h : ∀ i ∈ items, ∀ g, IsGap g → Reads source b r (g ++ i.1) EndsEntry i.2)
    (hstop : ∀ u, Stops source b r (41 :: u)) :
    Reads source b (openList r) (listBytes items) (fun u => ∃ w, u = 41 :: w) (Gives items) := by
  have hmore : ∀ u, (∃ w, u = 41 :: w) → Stops source b comma u := by
    rintro u ⟨w, rfl⟩
    exact stops_comma w
  have hclose : ∀ as, Gives items as → Reads source b (do let _ ← maybe comma; return as) []
      (fun u => ∃ w, u = 41 :: w) (Gives items) := fun as has =>
    (reads_maybe_none hmore).yields fun _ _ => has
  have hentries : Reads source b (commaList1 r <|> pure []) (listBytes items)
      (fun u => ∃ w, u = 41 :: w) (Gives items) := by
    cases items with
    | nil =>
      refine Reads.elseOr ?_ (reads_pure .nil)
      rintro u ⟨w, rfl⟩ c hc hr
      exact run_bind_none (hstop w hc hr)
    | cons i items =>
      have hfollow : Reads source b (many (comma *> r))
          (rowBytes (items.map fun j => (44 :: 32 :: j.1, j.2)))
          (fun u => EndsEntry u ∧ Stops source b (comma *> r) u)
          (Gives (items.map fun j => (44 :: 32 :: j.1, j.2))) := by
        refine reads_many (List.forall_mem_map.2 fun j _ => by simp)
          (List.forall_mem_map.2 fun j hj => ?_) fun i hi w => ?_
        · exact reads_comma.bind (fun _ _ => h j (by simp [hj]) [32] (.space rfl .nil))
            fun _ _ => trivial
        · obtain ⟨j, -, rfl⟩ := List.mem_map.1 (List.mem_of_mem_tail hi)
          exact ⟨_, .inl rfl⟩
      have hend : ∀ u, (∃ w, u = 41 :: w) → EndsEntry u ∧ Stops source b (comma *> r) u := by
        rintro u ⟨w, rfl⟩
        exact ⟨⟨w, .inr rfl⟩, fun c hc hr => run_bind_none (stops_comma w hc hr)⟩
      have hrow : rowBytes (items.map fun j => (44 :: 32 :: j.1, j.2)) =
          items.flatMap fun j => 44 :: 32 :: j.1 := by
        simp [rowBytes, List.flatMap_map]
      rw [hrow] at hfollow
      refine Reads.orElse (Reads.bind (h i (by simp) [] .nil) (fun a ha => ?_) ?_)
      · refine (hfollow.mono hend fun _ has => has).yields fun as has => ?_
        have htail : Gives items as := List.forall₂_map_left_iff
          (f := fun j : Bytes × (α → Prop) => (44 :: 32 :: j.1, j.2)).1 has
        exact .cons ha htail
      · rintro u ⟨w, rfl⟩
        cases items with
        | nil => exact ⟨w, .inr rfl⟩
        | cons j items => exact ⟨_, .inl rfl⟩
  exact hentries.finish hclose

theorem endsEntry_list (items : Row α) (u : Bytes) :
    EndsEntry ((items.flatMap fun j => 44 :: 32 :: j.1) ++ 41 :: u) := by
  cases items with
  | nil => exact ⟨u, .inr rfl⟩
  | cons j items => exact ⟨_, .inl rfl⟩

/-- A list with an entry that breaks is read up to one of its entries. -/
theorem run_openList_stuck {items : Row α}
    (h : ∀ i ∈ items, ∀ g, IsGap g →
      Reads source b r (g ++ i.1) EndsEntry i.2 ∨ Breaks source b r (g ++ i.1) EndsEntry)
    (hbegins : ∀ i ∈ items, ∀ u, ∃ w, Next (i.1 ++ u) w ∧ beginsWith "," w = false)
    (hbad : ∃ i ∈ items, ∀ g, IsGap g → Breaks source b r (g ++ i.1) EndsEntry) {c : Cursor}
    {u : Bytes} (hc : c.Stands source b) (hr : c.rest = listBytes items ++ 41 :: u) :
    ∃ as k, (openList r).run c = some (as, c.past k) ∧
      ∃ i ∈ items, ∃ g v, IsGap g ∧ (c.past k).rest = g ++ (i.1 ++ v) := by
  have hblank : IsGap [32] := .space rfl .nil
  obtain ⟨i, rest, rfl⟩ := List.exists_cons_of_ne_nil (l := items) fun hnil => by
    simp [hnil] at hbad
  have hends := endsEntry_list rest u
  have hr' : c.rest = i.1 ++ ((rest.flatMap fun j => 44 :: 32 :: j.1) ++ 41 :: u) := by
    simp [hr, listBytes]
  by_cases hi : Breaks source b r i.1 EndsEntry
  · obtain ⟨w, hnext, hw⟩ := hbegins i (by simp) ((rest.flatMap fun j => 44 :: 32 :: j.1) ++ 41 :: u)
    have hentries : (commaList1 r <|> pure []).run c = some ([], c) := by
      rw [run_orElse]
      unfold commaList1
      rw [run_bind_none (hi _ hends hc hr')]
      rfl
    have hcomma : comma.run c = none := by
      unfold comma
      rw [run_bind_some (Next.run_thenIs (by rw [hr']; exact hnext) _), hw]
      exact run_bind_none (run_require_false rfl)
    refine ⟨[], 0, ?_, i, by simp, [], _, .nil, hr'⟩
    unfold openList
    rw [run_bind_some hentries, run_bind_some (run_maybe_none hcomma)]
    rfl
  · have hfirst : Reads source b r i.1 EndsEntry i.2 := (h i (by simp) [] .nil).resolve_right hi
    obtain ⟨a, hrun, -⟩ := hfirst hc hr' hends
    have hothers : ∀ j ∈ rest.map fun j => (44 :: 32 :: j.1, j.2),
        Reads source b (comma *> r) j.1 EndsEntry j.2 ∨
          Breaks source b (comma *> r) j.1 EndsEntry := by
      refine List.forall_mem_map.2 fun j hj => ?_
      refine (h j (by simp [hj]) [32] hblank).imp (fun hj => ?_) fun hj v hv => ?_
      · exact reads_comma.bind (fun _ _ => hj) fun _ _ => trivial
      · exact reads_comma.stops trivial fun _ _ => hj v hv
    have hbroken : ∃ j ∈ rest.map fun j => (44 :: 32 :: j.1, j.2),
        Breaks source b (comma *> r) j.1 EndsEntry := by
      obtain ⟨j, hj, hjbad⟩ := hbad
      rcases List.mem_cons.1 hj with rfl | hj
      · exact absurd (hjbad [] .nil) hi
      · exact ⟨_, List.mem_map.2 ⟨j, hj, rfl⟩, fun v hv =>
          reads_comma.stops trivial fun _ _ => hjbad [32] hblank v hv⟩
    have hrow : rowBytes (rest.map fun j => (44 :: 32 :: j.1, j.2)) =
        rest.flatMap fun j => 44 :: 32 :: j.1 := by
      simp [rowBytes, List.flatMap_map]
    have hbehind : (c.past i.1.length).rest =
        rowBytes (rest.map fun j => (44 :: 32 :: j.1, j.2)) ++ 41 :: u := by
      rw [hrow]
      exact Cursor.past_rest_append hr'
    obtain ⟨as, k, hmany, x, hx, v, hv⟩ := run_manyWithin_stuck hothers (fun j hj w => by
      obtain ⟨x, -, rfl⟩ := List.mem_map.1 (List.mem_of_mem_tail hj)
      exact ⟨_, .inl rfl⟩) hbroken (c.size + 1) (hc.past i.1.length) hbehind ⟨u, .inr rfl⟩
    obtain ⟨j, hj, rfl⟩ := List.mem_map.1 hx
    have hmany' : (many (comma *> r)).run (c.past i.1.length) = _ := hmany
    have hentries : (commaList1 r <|> pure []).run c =
        some (a :: as, (c.past i.1.length).past k) := by
      rw [run_orElse]
      unfold commaList1
      rw [run_bind_some hrun, run_bind_some hmany']
      rfl
    have hreads : Reads source b comma [44] anyRest fun _ => True := reads_comma
    obtain ⟨_, hcomma, -⟩ := hreads ((hc.past i.1.length).past k) (u := 32 :: (j.1 ++ v)) hv trivial
    refine ⟨a :: as, i.1.length + k + 1, ?_, j, by simp [hj], [32], v, hblank, ?_⟩
    · unfold openList
      rw [run_bind_some hentries, run_bind_some (run_maybe_some hcomma), Cursor.past_past,
        Cursor.past_past]
      rfl
    · rw [← Cursor.past_past, ← Cursor.past_past, Cursor.past_rest, hv]
      rfl

/-- The entries of a list in parentheses decide. -/
theorem decides_between_openList {g : Bytes} (items : Row α) (good : Prop) (hg : IsGap g)
    (h : ∀ i ∈ items, (∀ g, IsGap g → Reads source false r (g ++ i.1) EndsEntry i.2) ∨
      ∀ g, IsGap g → Breaks source false r (g ++ i.1) EndsEntry)
    (hbegins : ∀ i ∈ items, ∀ u, ∃ w, Next (i.1 ++ u) w ∧ beginsWith "," w = false ∧
      beginsWith ")" w = false)
    (hstop : ∀ u, Stops source false r (41 :: u))
    (hgood : good → ∀ i ∈ items, ∀ g, IsGap g → Reads source false r (g ++ i.1) EndsEntry i.2)
    (hbad : ¬ good → ∃ i ∈ items, ∀ g, IsGap g → Breaks source false r (g ++ i.1) EndsEntry) :
    Decides source b (between "(" ")" (openList r)) (g ++ 40 :: (listBytes items ++ [41])) anyRest
      (Gives items) good := by
  constructor
  · intro hall
    exact reads_between (k := []) hg rfl rfl .nil rfl rfl (reads_openList (hgood hall) hstop)
  · intro hnot u _
    have hopen : Reads source b (symbol "(") (g ++ [40]) anyRest fun _ => True :=
      reads_sign hg rfl rfl
    have hrest : Stops source b (do
        let value ← inner (openList r)
        symbol ")"
        return value) (listBytes items ++ 41 :: u) := by
      refine stops_inner_bind fun c hc hr => ?_
      obtain ⟨as, k, hrun, i, hi, d, v, hd, hv⟩ := run_openList_stuck
        (fun i hi g hg => (h i hi).imp (fun hi => hi g hg) fun hi => hi g hg)
        (fun i hi u => (hbegins i hi u).imp fun w hw => ⟨hw.1, hw.2.1⟩) (hbad hnot) hc hr
      obtain ⟨w, hnext, -, hw⟩ := hbegins i hi v
      refine ⟨as, k, hrun, Stops.bind ?_⟩
      have hdrop : (listBytes items ++ 41 :: u).drop k = d ++ (i.1 ++ v) := by
        rw [← hr]
        exact hv
      obtain ⟨e, he, hev⟩ := hnext.behind
      rw [hdrop, hev, ← List.append_assoc]
      exact stops_symbol (next_append (hd.append he) hnext.token) hw
    simpa [between] using hopen.stops trivial fun _ _ => hrest

end

/-! ## Texts with line breaks between them -/

section
variable {α : Type} {source : Bytes} {b : Bool} {r : Reader α} {g sep : Bytes}

/-- The texts of a row, each with the gap in front of it: `g` in front of the first one and `sep` in
front of every other. -/
def spaced (sep : Bytes) : Bytes → Row α → Row α
  | _, [] => []
  | g, i :: items => (g ++ i.1, i.2) :: spaced sep sep items

/-- What is left behind the last text. -/
def spacedEnd (sep : Bytes) : Bytes → Row α → Bytes
  | g, [] => g
  | _, _ :: _ => sep

theorem rowBytes_spaced (g : Bytes) (items : Row α) :
    rowBytes (spaced sep g items) ++ spacedEnd sep g items =
      g ++ items.flatMap fun i => i.1 ++ sep := by
  induction items generalizing g with
  | nil => simp [spaced, spacedEnd, rowBytes]
  | cons i items ih =>
    have hend : spacedEnd sep sep items = spacedEnd sep g (i :: items) := by
      cases items <;> rfl
    have hrest := ih sep
    rw [hend] at hrest
    simp only [rowBytes] at hrest
    simp only [spaced, rowBytes, List.flatMap_cons, List.append_assoc, hrest]

theorem isGap_spacedEnd (hg : IsGap g) (hsep : IsGap sep) (items : Row α) :
    IsGap (spacedEnd sep g items) := by
  cases items with
  | nil => exact hg
  | cons i items => exact hsep

theorem gives_spaced {items : Row α} {as : List α} (h : Gives (spaced sep g items) as) :
    Gives items as := by
  induction items generalizing g as with
  | nil => exact h
  | cons i items ih =>
    obtain _ | ⟨ha, has⟩ := h
    exact .cons ha (ih has)

/-- What holds of each text behind any gap holds of the texts with their gaps. -/
theorem forall_spaced {items : Row α} {p : Bytes → (α → Prop) → Prop} (hg : IsGap g)
    (hsep : IsGap sep) (h : ∀ i ∈ items, ∀ k, IsGap k → p (k ++ i.1) i.2) :
    ∀ i ∈ spaced sep g items, p i.1 i.2 := by
  induction items generalizing g with
  | nil => simp [spaced]
  | cons i items ih =>
    rw [spaced, List.forall_mem_cons]
    exact ⟨h i (by simp) g hg, ih hsep fun j hj => h j (by simp [hj])⟩

theorem exists_spaced {items : Row α} {p : Bytes → (α → Prop) → Prop} (hg : IsGap g)
    (hsep : IsGap sep) (h : ∃ i ∈ items, ∀ k, IsGap k → p (k ++ i.1) i.2) :
    ∃ i ∈ spaced sep g items, p i.1 i.2 := by
  induction items generalizing g with
  | nil => simp at h
  | cons i items ih =>
    obtain ⟨j, hj, hp⟩ := h
    rcases List.mem_cons.1 hj with rfl | hj
    · exact ⟨(g ++ j.1, j.2), by simp [spaced], hp g hg⟩
    · obtain ⟨x, hx, hpx⟩ := ih hsep ⟨j, hj, hp⟩
      exact ⟨x, by simp [spaced, hx], hpx⟩

/-- Texts in braces with line breaks between them decide, each for itself. -/
theorem decides_lines {ι : Type} (ms : List ι) (item : ι → Bytes × (α → Prop)) (good : ι → Prop)
    {lead k : Bytes} (hg : IsGap g) (hlead : IsGap lead) (hsep : IsGap sep) (hk : IsGap k)
    (h : ∀ m ∈ ms, (item m).1 ≠ [] ∧ ∀ d, IsGap d →
      Decides source false r (d ++ (item m).1) anyRest (item m).2 (good m))
    (hbegins : ∀ m ∈ ms, ∀ u, ∃ w, Next ((item m).1 ++ u) w ∧ beginsWith "\x7d" w = false)
    (hstop : ∀ {u w : Bytes}, Next u (125 :: w) → Stops source false r u) :
    Decides source b (between "\x7b" "\x7d" (many r))
      (g ++ 123 :: (lead ++ ((ms.map item).flatMap fun i => i.1 ++ sep) ++ (k ++ [125]))) anyRest
      (Gives (ms.map item)) (∀ m ∈ ms, good m) := by
  have hend : IsGap (spacedEnd sep lead (ms.map item) ++ k) :=
    (isGap_spacedEnd hlead hsep _).append hk
  have hbytes : lead ++ ((ms.map item).flatMap fun i => i.1 ++ sep) ++ (k ++ [125]) =
      rowBytes (spaced sep lead (ms.map item)) ++
        (spacedEnd sep lead (ms.map item) ++ k ++ [125]) := by
    rw [← rowBytes_spaced]
    simp
  have hgood : (∀ m ∈ ms, good m) → ∀ i ∈ spaced sep lead (ms.map item),
      Reads source false r i.1 anyRest i.2 := fun hall =>
    forall_spaced (p := fun t post => Reads source false r t anyRest post) hlead hsep
      (List.forall_mem_map.2 fun m hm d hd => ((h m hm).2 d hd).reads (hall m hm))
  have hbad : (¬ ∀ m ∈ ms, good m) → ∃ i ∈ spaced sep lead (ms.map item),
      Breaks source false r i.1 anyRest := fun hnot => by
    simp only [not_forall] at hnot
    obtain ⟨m, hm, hm'⟩ := hnot
    exact exists_spaced (p := fun t _ => Breaks source false r t anyRest) hlead hsep
      ⟨_, List.mem_map.2 ⟨m, hm, rfl⟩, fun d hd => ((h m hm).2 d hd).breaks hm'⟩
  have hall : ∀ i ∈ spaced sep lead (ms.map item), i.1 ≠ [] ∧
      (Reads source false r i.1 anyRest i.2 ∨ Breaks source false r i.1 anyRest) :=
    forall_spaced (p := fun t post => t ≠ [] ∧
      (Reads source false r t anyRest post ∨ Breaks source false r t anyRest)) hlead hsep
      (List.forall_mem_map.2 fun m hm d hd => by
        refine ⟨by simp [(h m hm).1], ?_⟩
        by_cases hm' : good m
        · exact .inl (((h m hm).2 d hd).reads hm')
        · exact .inr (((h m hm).2 d hd).breaks hm'))
  have hclose : ∀ i ∈ spaced sep lead (ms.map item), ∀ u, ∃ w,
      Next (i.1 ++ u) w ∧ beginsWith "\x7d" w = false :=
    forall_spaced (p := fun t _ => ∀ u, ∃ w, Next (t ++ u) w ∧ beginsWith "\x7d" w = false) hlead
      hsep (List.forall_mem_map.2 fun m hm d hd u => by
        obtain ⟨w, hnext, hw⟩ := hbegins m hm u
        obtain ⟨e, he, hew⟩ := hnext.behind
        refine ⟨w, ?_, hw⟩
        rw [List.append_assoc, hew, ← List.append_assoc]
        exact next_append (hd.append he) hnext.token)
  rw [hbytes]
  exact (decides_between_many hg rfl rfl hend rfl rfl hall hclose
    (fun w => hstop (next_append hend (beginsToken_solid rfl))) hgood hbad).mono (fun _ hu => hu)
    fun _ has => gives_spaced has

end

end FacadeStubs.Php
