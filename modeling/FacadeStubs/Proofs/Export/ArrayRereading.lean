import FacadeStubs.Proofs.Export.ArrayText
import FacadeStubs.Proofs.Export.Kept

/-!
# Arrays read back

The exported text of an array is read as an array again, in which every entry has a key. It has the
value of the exported one if the keys that were numbered and told apart when the array was written are
so for the value, too.

Results:
* `exists_exported`: what the entries of an array are written as, and what they fill the array with.
* `exists_arrayText`: the text of an array is that of the lines of the entries that are left.
* `reread?_text_of_kept`: the text of an expression that is kept is read as an expression with its value.
* `text_unknown_keys`: two arrays whose texts have other values.
-/
namespace FacadeStubs.Export

open Php Lexical

section
variable {index : ClassIndex} {given : String → String → Key} {budget : Nat} {level : Level}

/-! ## Entries as they are exported -/

/-- An entry: as it is written, and as it is. -/
structure Row where
  written : ArrayKey
  slot : Slot
  actual : Key
  value : Value

namespace Row

def mark (r : Row) : Mark := ⟨r.written, r.actual, r.slot.key.isNone⟩

/-- The key and the value are read as what they are. -/
structure Sound (index : ClassIndex) (given : String → String → Key) (r : Row) : Prop where
  key : r.written.Stands index given r.actual
  value : ∃ t w, r.slot.text = some t ∧ ReadsAs (Utf8.bytesOf t) w ∧ Means index given w r.value

end Row

/-- What entries are written as, and what they fill an array with. -/
structure Exported (index : ClassIndex) (given : String → String → Key) (level : Level) (indent : Nat)
    (f : Filling) (next : Int64) (entries : List ArrayEntry) (g : Filling) (rows : List Row) : Prop where
  slots : slots? level indent entries = some (rows.map Row.slot)
  numbered : numbered next (rows.map Row.slot) = rows.map fun r => (r.written, r.slot)
  marked : Marked index given level next entries (rows.map Row.mark)
  sound : ∀ r ∈ rows, r.Sound index given
  /-- The keys are those of the entries if the numbers in them are. -/
  fills : ∀ seen, Counts next f seen → (seen ++ rows.map Row.mark).Pairwise Mark.Below →
    g.pairs = putAll f.pairs (rows.map fun r => (r.actual, r.value))

theorem Exported.nil (indent : Nat) (f : Filling) (next : Int64) :
    Exported index given level indent f next [] f [] where
  slots := rfl
  numbered := rfl
  marked := .nil next
  sound := nofun
  fills := fun _ _ _ => rfl

/-- One entry in front of others. -/
theorem Exported.cons {indent : Nat} {f g : Filling} {next : Int64} {entry : ArrayEntry}
    {rest : List ArrayEntry} {rows : List Row} {r : Row} {k : Key}
    (hslot : slot? level indent entry = some r.slot)
    (hwritten : r.slot.key.getD (.int next) = r.written) (hsound : r.Sound index given)
    (hmarked : ∀ {marks}, Marked index given level (nextAfter next r.written) rest marks →
      Marked index given level next (entry :: rest) (r.mark :: marks))
    (hkey : ∀ seen, Counts next f seen → (r.slot.key = none → ∀ p ∈ seen, ∀ i j, p.actual = .int i →
      r.actual = .int j → i.toInt < j.toInt) → k = r.actual)
    (h : Exported index given level indent (f.set k r.value) (nextAfter next r.written) rest g rows) :
    Exported index given level indent f next (entry :: rest) g (r :: rows) where
  slots := by rw [slots?, hslot, h.slots]; rfl
  numbered := by
    rw [List.map_cons, Export.numbered, hwritten, h.numbered]
    rfl
  marked := hmarked h.marked
  sound := List.forall_mem_cons.2 ⟨hsound, h.sound⟩
  fills := by
    intro seen hcounts hnumbers
    -- the number in the value is the written one, since that is above all keys that were seen
    obtain rfl : k = r.actual := by
      refine hkey seen hcounts fun hnone p hp => ?_
      have hbelow := (List.pairwise_append.1 hnumbers).2.2 p hp r.mark List.mem_cons_self
      exact hbelow (by rw [Row.mark, hnone]; rfl)
    have hcounts' := hcounts.set (p := r.mark) hsound.key.number r.value
    refine h.fills (seen ++ [r.mark]) hcounts' ?_
    rwa [List.append_assoc]

/-- Entries whose parts are read as what they are. -/
theorem exists_exported {indent : Nat} {f g : Filling} {entries : List ArrayEntry}
    (hfills : Fills index given f entries g)
    (hkey : ∀ entry ∈ entries, ∀ k, entry.key? = some k → ∀ {s : Scalar},
      Means index given k (.scalar s) → ∃ x, keyOf? level k = some x ∧ x.Stands index given s.key)
    (hvalue : ∀ entry ∈ entries, ∀ {x : Value}, Means index given entry.value x →
      ∃ t w, value? level indent entry.value = some t ∧ ReadsAs (Utf8.bytesOf t) w ∧
        Means index given w x) (next : Int64) :
    ∃ rows, Exported index given level indent f next entries g rows := by
  induction entries generalizing f next with
  | nil =>
    cases hfills
    exact ⟨[], .nil indent _ next⟩
  | cons entry rest ih =>
    rw [List.forall_mem_cons] at hkey hvalue
    cases hfills with
    | @item _ _ v _ k x hx hk hrest =>
      obtain ⟨rows, hrows⟩ := ih hrest hkey.2 hvalue.2 (nextAfter next (.int next))
      obtain ⟨t, w, ht, hw⟩ := hvalue.1 hx
      have hstands : (ArrayKey.int next).Stands index given (.int next) :=
        ArrayKey.stands_of_scalar (s := .int next) rfl
      let r : Row := ⟨.int next, ⟨none, isArrayLiteral v, some t⟩, .int next, x⟩
      refine ⟨r :: rows, .cons ?_ rfl ⟨hstands, t, w, rfl, hw⟩ .item (fun seen hcounts hseen => ?_) hrows⟩
      · exact congrArg (fun text => some (Slot.mk none (isArrayLiteral v) text)) ht
      · exact hcounts.automatic (fun p hp i hi => hseen rfl p hp i next hi rfl) hk
    | @pair _ _ k v _ s x hs hx hrest =>
      obtain ⟨key, hkeyOf, hstands⟩ := hkey.1 k rfl hs
      obtain ⟨rows, hrows⟩ := ih hrest hkey.2 hvalue.2 (nextAfter next key)
      obtain ⟨t, w, ht, hw⟩ := hvalue.1 hx
      let r : Row := ⟨key, ⟨some key, isArrayLiteral v, some t⟩, s.key, x⟩
      refine ⟨r :: rows, .cons ?_ rfl ⟨hstands, t, w, rfl, hw⟩ (.pair hkeyOf hs) (fun _ _ _ => rfl) hrows⟩
      have htext : value? level indent v = some t := ht
      show (keyOf? level k).map _ = _
      rw [hkeyOf, htext]
      rfl

/-! ## The text of an array -/

/-- The entries that are left: a later one stands in the place of an earlier one with its key. -/
def leftRows (rows : List Row) : List Row :=
  (putAll [] (rows.map fun r => (r.written, r))).map Prod.snd

theorem mem_of_mem_leftRows {rows : List Row} {r : Row} (h : r ∈ leftRows rows) : r ∈ rows := by
  obtain ⟨p, hp, rfl⟩ := List.mem_map.1 h
  obtain ⟨r, hr, rfl⟩ := List.mem_map.1 (mem_of_mem_putAll hp)
  exact hr

theorem entriesByKey_rows {rows : List Row}
    (h : numbered 0 (rows.map Row.slot) = rows.map fun r => (r.written, r.slot)) :
    entriesByKey (rows.map Row.slot) = (leftRows rows).map fun r => (r.written, r.slot) := by
  have hmap : (rows.map fun r => (r.written, r.slot)) =
      (rows.map fun r => (r.written, r)).map (Prod.map id Row.slot) := by
    rw [List.map_map]
    rfl
  rw [entriesByKey_eq, h, hmap, ← putAll_map, leftRows, List.map_map]
  refine List.map_congr_left fun p hp => ?_
  obtain ⟨r, -, rfl⟩ := List.mem_map.1 (mem_of_mem_putAll hp)
  rfl

/-- A line of an entry, with what it is read as: the key and the value that the entry has. -/
structure Row.Line (index : ClassIndex) (given : String → String → Key) (indent : Nat) (r : Row)
    (l : ConstantLine) : Prop where
  written : IsLineOf indent (r.written, r.slot) l.line
  sound : l.Sound
  key : ∃ k, Means index given l.entry.1 (.scalar k) ∧ k.key = r.actual
  value : Means index given l.entry.2 r.value

theorem Row.Sound.exists_line {r : Row} (h : r.Sound index given)
    (hleast : r.written ≠ .int Int64.minValue) (indent : Nat) : ∃ l, r.Line index given indent l := by
  obtain ⟨k, s, hk, hs, hactual⟩ := h.key.reads hleast
  obtain ⟨t, w, ht, hw, hx⟩ := h.value
  refine ⟨⟨Utf8.bytesOf r.written.text, valueBlanks indent r.slot.isArray, Utf8.bytesOf t, (k, w)⟩, ?_⟩
  exact ⟨⟨rfl, rfl, t, ht, rfl⟩, ⟨⟨all_valueBlanks _ _, hk, hw⟩, hx.isExpr⟩, ⟨s, hs, hactual⟩, hx⟩

/-- The text of an array is that of the lines of its entries. -/
theorem exists_arrayText {rows : List Row} (hsound : ∀ r ∈ rows, r.Sound index given)
    (hleast : ∀ r ∈ rows, r.written ≠ .int Int64.minValue)
    (hnumbered : numbered 0 (rows.map Row.slot) = rows.map fun r => (r.written, r.slot)) (indent : Nat) :
    ∃ t lines, arrayText? indent (rows.map Row.slot) = some t ∧ Utf8.bytesOf t =
        arrayBytes (entryGap indent) (endGap indent) (lines.map ConstantLine.line) ∧
      List.Forall₂ (Row.Line index given indent) (leftRows rows) lines := by
  have hexists : ∀ r ∈ leftRows rows, ∃ l, r.Line index given indent l := fun r hr =>
    (hsound r (mem_of_mem_leftRows hr)).exists_line (hleast r (mem_of_mem_leftRows hr)) indent
  obtain ⟨lines, hlines⟩ := exists_forall₂ hexists
  have hwritten : List.Forall₂ (IsLineOf indent) ((leftRows rows).map fun r => (r.written, r.slot))
      (lines.map ConstantLine.line) := by
    rw [List.forall₂_map_left_iff, List.forall₂_map_right_iff]
    exact hlines.imp fun _ _ hline => hline.written
  obtain ⟨texts, htexts, hbytes⟩ := exists_linesText hwritten
  rw [← entriesByKey_rows hnumbered] at htexts
  exact ⟨_, lines, by rw [arrayText?, htexts]; rfl, hbytes, hlines⟩

/-! ## Reading back -/

/-- What a key is written as tells which key it is. -/
theorem ArrayKey.Stands.unique {written : ArrayKey} {k k' : Key} (h : written.Stands index given k)
    (h' : written.Stands index given k') (hleast : written ≠ .int Int64.minValue) : k = k' := by
  obtain ⟨w, s, hw, hs, rfl⟩ := h.reads hleast
  obtain ⟨w', s', hw', hs', rfl⟩ := h'.reads hleast
  have heq := (reread?_of_readsAs hw serviceScope).symm.trans (reread?_of_readsAs hw' serviceScope)
  cases heq
  cases hs.unique hs'
  rfl

/-- Lines fill an array with what their entries are. -/
theorem exists_fills {indent : Nat} {rows : List Row} {lines : List ConstantLine}
    (h : List.Forall₂ (Row.Line index given indent) rows lines) (f : Filling) :
    ∃ g, Fills index given f (lines.map fun l => .pair l.entry.1 l.entry.2) g ∧
      g.pairs = putAll f.pairs (rows.map fun r => (r.actual, r.value)) := by
  induction h generalizing f with
  | nil => exact ⟨f, .nil f, rfl⟩
  | @cons r l rows lines hline _ ih =>
    obtain ⟨k, hk, hkey⟩ := hline.key
    obtain ⟨g, hg, hpairs⟩ := ih (f.set k.key r.value)
    refine ⟨g, .pair hk hline.value hg, ?_⟩
    rw [hpairs, hkey]
    rfl

/-- The entries that are left fill an array with what all of them do. -/
theorem putAll_leftRows {rows : List Row} (hsound : ∀ r ∈ rows, r.Sound index given)
    (hapart : Apart (rows.map Row.mark)) :
    putAll [] ((leftRows rows).map fun r => (r.actual, r.value)) =
      putAll [] (rows.map fun r => (r.actual, r.value)) := by
  have hleast : ∀ r ∈ rows, r.written ≠ .int Int64.minValue := fun r hr =>
    hapart.least r.mark (List.mem_map_of_mem hr)
  have hsame : ∀ p ∈ rows.map fun r => (r.written, r), ∀ q ∈ rows.map fun r => (r.written, r),
      p.1 = q.1 → p.2.actual = q.2.actual := by
    intro p hp q hq heq
    obtain ⟨r, hr, rfl⟩ := List.mem_map.1 hp
    obtain ⟨r', hr', rfl⟩ := List.mem_map.1 hq
    have hkey := (hsound r' hr').key
    rw [← show r.written = r'.written from heq] at hkey
    exact (hsound r hr).key.unique hkey (hleast r hr)
  -- pairs are told apart by their written keys here, and by their actual ones in the value
  have hbetween : ∀ p q r, [p, q, r].Sublist (rows.map fun r => (r.written, r)) → p.1 = r.1 →
      q.2.actual = p.2.actual → q.1 = p.1 := by
    intro p q r hsub hwritten hactual
    obtain ⟨rows', hrows', heq⟩ := List.sublist_map_iff.1 hsub
    obtain ⟨a, rows₁, rfl, rfl, hrest₁⟩ := List.map_eq_cons_iff.1 heq.symm
    obtain ⟨b, rows₂, rfl, rfl, hrest₂⟩ := List.map_eq_cons_iff.1 hrest₁
    obtain ⟨c, rows₃, rfl, rfl, hnil⟩ := List.map_eq_cons_iff.1 hrest₂
    obtain rfl := List.map_eq_nil_iff.1 hnil
    exact hapart.repeats a.mark b.mark c.mark (hrows'.map Row.mark) hwritten hactual
  have hput := putAll_putAll (fun r : Row => (r.actual, r.value)) hsame hbetween
  rw [List.map_map] at hput
  rw [leftRows, List.map_map]
  exact hput

/-- What is read from the text of an array has the value of the array. -/
theorem Exported.reads {indent : Nat} {entries : List ArrayEntry} {g : Filling} {rows : List Row}
    (h : Exported index given level (indent + 2) {} 0 entries g rows)
    (hapart : Apart (rows.map Row.mark)) :
    ∃ t w, value? level indent (.array entries) = some t ∧ ReadsAs (Utf8.bytesOf t) w ∧
      Means index given w (.array g.pairs) := by
  have hleast : ∀ r ∈ rows, r.written ≠ .int Int64.minValue := fun r hr =>
    hapart.least r.mark (List.mem_map_of_mem hr)
  obtain ⟨t, lines, htext, hbytes, hlines⟩ := exists_arrayText h.sound hleast h.numbered indent
  have hsound : ∀ l ∈ lines, l.Sound := fun l hl => by
    obtain ⟨r, -, hline⟩ := exists_mem_of_forall₂ hlines l hl
    exact hline.sound
  have hreads := readsAs_array hsound (isGap_entryGap indent) (isGap_endGap indent)
  obtain ⟨f, hf, hpairs⟩ := exists_fills hlines {}
  have heq : f.pairs = g.pairs := by
    rw [hpairs, h.fills [] .start hapart.numbers]
    exact putAll_leftRows h.sound hapart
  refine ⟨t, _, ?_, hbytes ▸ hreads, heq ▸ .array hf⟩
  rw [value?, h.slots]
  exact htext

/-- The text of an expression that is kept is read as an expression with its value. -/
theorem Kept.reads {v : Literal} (h : Kept index given budget v) {x : Value} (hx : Means index given v x)
    (indent : Nat) : ∃ t w, value? (levelAt index (text? index) budget) indent v = some t ∧
      ReadsAs (Utf8.bytesOf t) w ∧ Means index given w x := by
  -- only an array needs the texts of its parts: all else is written as it denotes
  induction h generalizing x indent with
  | folded hfold hleast =>
    obtain ⟨s, rfl, -⟩ := hx.fold hfold
    exact ((Kept.folded hfold hleast).carried hx).reads (text? index) indent
  | followed href hd _ ih =>
    rw [value?_followed (text? index) indent href hd]
    exact ih (hx.followed href hd).2 indent
  | reference href hnone haddressed =>
    exact (haddressed.carried href hnone (hx.constant href)).reads (text? index) indent
  | unary hfold hgrouped hkept _ =>
    cases hx with
    | unary hv hs =>
      exact ((Kept.unary hfold hgrouped hkept).carried (.unary hv hs)).reads (text? index) indent
  | binary hfold hgrouped hl hr _ _ =>
    cases hx with
    | binary hl' hr' hs =>
      exact ((Kept.binary hfold hgrouped hl hr).carried (.binary hl' hr' hs)).reads (text? index) indent
  | @array budget entries hapart hparts ih =>
    cases hx with
    | @array _ filled hfills =>
      have hkeys : ∀ entry ∈ entries, ∀ k, entry.key? = some k → Kept index given budget k := by
        intro entry hentry k hk
        refine hparts entry hentry k ?_
        rw [ArrayEntry.parts, hk]
        exact List.mem_append_left _ List.mem_cons_self
      have hexported : ∃ rows, Exported index given (levelAt index (text? index) budget) (indent + 2)
          {} 0 entries filled rows := by
        refine exists_exported hfills (fun entry hentry k hk _ hs => ?_) (fun entry hentry _ hx => ?_) 0
        · exact (hkeys entry hentry k hk).key hs (text? index)
        · have hvalue : entry.value ∈ entry.parts := List.mem_append_right _ List.mem_cons_self
          exact ih entry hentry entry.value hvalue hx (indent + 2)
      obtain ⟨rows, hrows⟩ := hexported
      exact hrows.reads (hapart _ hrows.marked)

theorem Kept.reads_text {v : Literal} (hv : Kept index given maxDepth v) {x : Value}
    (hx : Means index given v x) :
    ∃ w, ReadsAs (Utf8.bytesOf (text index v)) w ∧ Means index given w x := by
  obtain ⟨t, w, ht, hw, hwx⟩ := hv.reads hx 0
  have htext : text index v = t := by
    rw [text, text?_eq_value?, ht]
    rfl
  exact ⟨w, htext ▸ hw, hwx⟩

/-- The text of an expression that is kept is read as an expression that has its value, and no other. -/
theorem reread?_text_of_kept {v : Literal} {x : Value} (hv : Kept index given maxDepth v)
    (hx : Means index given v x) (scope : ClassScope) :
    ∃ w, reread? scope (text index v) = some w ∧ ∀ y, Means index given w y ↔ y = x := by
  obtain ⟨w, hw, hwx⟩ := hv.reads_text hx
  refine ⟨w, reread?_of_readsAs hw scope, fun y => ⟨fun hy => hy.unique hwx, ?_⟩⟩
  rintro rfl
  exact hwx

end

/-! ## Examples -/

/-- A class with one constant. -/
def countIndex : ClassIndex := { decls := [{ name := "A", constants := [("N", .int 3)] }] }

/-- A number behind a known key, and one in an array under an unknown key. -/
def numberedArray : Literal :=
  .array [.pair (.classConst "A" "N") (.str "p"), .item (.str "q"),
    .pair (.classConst "B" "U") (.array [.item (.classConst "B" "U")])]

/-- The constants of all other classes are one string. -/
def allU (_ _ : String) : Key := .str "u"

theorem means_numberedArray : Means countIndex allU numberedArray
    (.array [(.int 3, .scalar (.str "p")), (.int 4, .scalar (.str "q")),
      (.str "u", .array [(.int 0, .scalar (.str "u"))])]) := by
  have hknown : Means countIndex allU (.classConst "A" "N") (.scalar (.int 3)) :=
    .classConst (.known (by decide) rfl (.int 3))
  have hunknown : Means countIndex allU (.classConst "B" "U") (.scalar (.str "u")) :=
    .classConst (.unknown (by decide) rfl)
  have hinner : Means countIndex allU (.array [.item (.classConst "B" "U")])
      (.array [(.int 0, .scalar (.str "u"))]) := .array (.item hunknown rfl (.nil _))
  exact .array (.pair hknown (.str "p") (.item (.str "q") rfl (.pair hunknown hinner (.nil _))))

theorem kept_unknown (given : String → String → Key) :
    Kept countIndex given maxDepth (.classConst "B" "U") :=
  .reference rfl (.inr rfl)
    ⟨by decide, ⟨[66], [], by decide, by decide⟩, ⟨⟨'\\', by decide⟩, 'B', by decide⟩, by decide⟩

theorem kept_scalar (given : String → String → Key) (s : Scalar) (hs : s.literal ≠ .int Int64.minValue) :
    Kept countIndex given maxDepth s.literal :=
  .folded (w := s.literal) (by cases s <;> rfl) hs

theorem kept_numberedArray : Kept countIndex allU maxDepth numberedArray := by
  have hunknown := kept_unknown allU
  have hknown : Kept countIndex allU maxDepth (.classConst "A" "N") :=
    .folded (w := .int 3) rfl (by simp; decide)
  have hinnerMarked : Marked countIndex allU (levelAt countIndex (text? countIndex) maxDepth) 0
      [.item (.classConst "B" "U")] [⟨.int 0, .int 0, true⟩] := .item (.nil _)
  have hinner : Kept countIndex allU maxDepth (.array [.item (.classConst "B" "U")]) :=
    .array_of_marked hinnerMarked (hinnerMarked.apart_of_known (by decide)) (by simpa using hunknown)
  have hmarked : Marked countIndex allU (levelAt countIndex (text? countIndex) maxDepth) 0
      [.pair (.classConst "A" "N") (.str "p"), .item (.str "q"),
        .pair (.classConst "B" "U") (.array [.item (.classConst "B" "U")])]
      [⟨.int 3, .int 3, false⟩, ⟨.int 4, .int 4, true⟩, ⟨.verbatim "\\B::U", .str "u", false⟩] :=
    .pair rfl (.classConst (.known (by decide) rfl (.int 3))) (.item (.pair rfl
      (.classConst (.unknown (by decide) rfl)) (.nil _)))
  have hp := kept_scalar allU (.str "p") nofun
  have hq := kept_scalar allU (.str "q") nofun
  refine .array_of_marked hmarked (.of_distinct ?_ (by decide) (by decide)) ?_
  · simp [Mark.Below]
  · simpa using ⟨⟨hknown, hp⟩, hq, hunknown, hinner⟩

theorem reread?_text_of_numberedArray :
    Kept countIndex allU maxDepth numberedArray ∧
      text countIndex numberedArray = "array (\n  3 => 'p',\n  4 => 'q',\n  \\B::U => \n  array (\n" ++
        "    0 => \\B::U,\n  ),\n)" ∧
      ∃ w, reread? serviceScope (text countIndex numberedArray) = some w ∧
        ∀ y, Means countIndex allU w y ↔ y = .array [(.int 3, .scalar (.str "p")),
          (.int 4, .scalar (.str "q")), (.str "u", .array [(.int 0, .scalar (.str "u"))])] :=
  ⟨kept_numberedArray, by decide +kernel,
    reread?_text_of_kept kept_numberedArray means_numberedArray serviceScope⟩

/-- Entries of which the second has a key that depends on the first, and on nothing that is known. -/
def shiftedArray : Literal := .array [.pair (.classConst "B" "U") (.int 1), .item (.int 2)]

/-- Entries that have one key if the constant is five. -/
def overwrittenArray : Literal :=
  .array [.pair (.classConst "B" "U") (.int 1), .pair (.int 5) (.int 2),
    .pair (.classConst "B" "U") (.int 3)]

/-- The constants of all other classes are five. -/
def allFive (_ _ : String) : Key := .int 5

theorem means_five : Means countIndex allFive (.classConst "B" "U") (.scalar (.int 5)) :=
  .classConst (.unknown (by decide) rfl)

theorem means_shiftedArray : Means countIndex allFive shiftedArray
    (.array [(.int 5, .scalar (.int 1)), (.int 6, .scalar (.int 2))]) :=
  .array (.pair means_five (.int 1) (.item (.int 2) rfl (.nil _)))

theorem means_overwrittenArray : Means countIndex allFive overwrittenArray
    (.array [(.int 5, .scalar (.int 3))]) :=
  .array (.pair means_five (.int 1) (.pair (.int 5) (.int 2) (.pair means_five (.int 3) (.nil _))))

/-- An array of an entry under an unknown key and one under a known key. -/
def twoEntries (i j k : Int64) : Literal :=
  .array [.pair (.classConst "B" "U") (.int i), .pair (.int j) (.int k)]

theorem means_twoEntries (i j k : Int64) : Means countIndex allFive (twoEntries i j k)
    (.array (put (.int j) (.scalar (.int k)) [(.int 5, .scalar (.int i))])) :=
  .array (.pair means_five (.int i) (.pair (.int j) (.int k) (.nil _)))

theorem kept_twoEntries {i j k : Int64} (hi : i ≠ Int64.minValue) (hj : j ≠ Int64.minValue)
    (hk : k ≠ Int64.minValue) : Kept countIndex allFive maxDepth (twoEntries i j k) := by
  have hunknown := kept_unknown allFive
  have hint : ∀ i : Int64, i ≠ Int64.minValue → Kept countIndex allFive maxDepth (.int i) := fun i hi =>
    kept_scalar allFive (.int i) (by simpa [Scalar.literal] using hi)
  have hmarked : Marked countIndex allFive (levelAt countIndex (text? countIndex) maxDepth) 0
      [.pair (.classConst "B" "U") (.int i), .pair (.int j) (.int k)]
      [⟨.verbatim "\\B::U", .int 5, false⟩, ⟨.int j, .int j, false⟩] :=
    .pair rfl means_five (.pair rfl (.int j) (.nil _))
  refine .array_of_marked hmarked (.of_distinct ?_ ?_ ?_) ?_
  · simp [Mark.Below]
  · simp
  · simpa using hj
  · simpa using ⟨⟨hunknown, hint i hi⟩, hint j hj, hint k hk⟩

/-- An entry without a key is numbered, and an entry gives way to a later one, before the unknown key
beside it is known: if that is five, these texts have other values than their arrays. -/
theorem text_unknown_keys :
    (Means countIndex allFive shiftedArray
        (.array [(.int 5, .scalar (.int 1)), (.int 6, .scalar (.int 2))]) ∧
      text countIndex shiftedArray = "array (\n  \\B::U => 1,\n  0 => 2,\n)" ∧
      ∃ w, reread? serviceScope (text countIndex shiftedArray) = some w ∧
        Means countIndex allFive w (.array [(.int 5, .scalar (.int 1)), (.int 0, .scalar (.int 2))]) ∧
        ¬ Means countIndex allFive w
          (.array [(.int 5, .scalar (.int 1)), (.int 6, .scalar (.int 2))])) ∧
    Means countIndex allFive overwrittenArray (.array [(.int 5, .scalar (.int 3))]) ∧
      text countIndex overwrittenArray = "array (\n  \\B::U => 3,\n  5 => 2,\n)" ∧
      ∃ w, reread? serviceScope (text countIndex overwrittenArray) = some w ∧
        Means countIndex allFive w (.array [(.int 5, .scalar (.int 2))]) ∧
        ¬ Means countIndex allFive w (.array [(.int 5, .scalar (.int 3))]) := by
  -- each text is that of an array that is kept
  have hshifted : text countIndex shiftedArray = text countIndex (twoEntries 1 0 2) := by decide +kernel
  have hoverwritten : text countIndex overwrittenArray = text countIndex (twoEntries 3 5 2) := by
    decide +kernel
  obtain ⟨w, hw, hx⟩ := (kept_twoEntries (i := 1) (j := 0) (k := 2) (by decide) (by decide)
    (by decide)).reads_text (means_twoEntries 1 0 2)
  obtain ⟨w', hw', hx'⟩ := (kept_twoEntries (i := 3) (j := 5) (k := 2) (by decide) (by decide)
    (by decide)).reads_text (means_twoEntries 3 5 2)
  rw [← hshifted] at hw
  rw [← hoverwritten] at hw'
  refine ⟨⟨means_shiftedArray, by decide +kernel, w, reread?_of_readsAs hw serviceScope, hx, fun hy => ?_⟩,
    means_overwrittenArray, by decide +kernel, w', reread?_of_readsAs hw' serviceScope, hx', fun hy => ?_⟩
  · have hpairs := Value.array.inj (hy.unique hx)
    simp [put] at hpairs
  · have hpairs := Value.array.inj (hy.unique hx')
    simp [put] at hpairs

end FacadeStubs.Export
