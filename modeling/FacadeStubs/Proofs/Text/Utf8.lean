import FacadeStubs.Text.Segments
import FacadeStubs.Text.Utf8

/-!
# Text as bytes and back

Results:
* `bytesOf_append`, `bytesOf_joined_cons`, `encode_ascii`: the bytes of a text are those of its
  parts, and an ASCII character is one byte.
* `toNat_of_mem_utf8EncodeChar`, `encode_split`: a byte below 128 stands for itself only, never inside
  a longer character.
* `decode?_encode`, `lossy_encode`: decoding inverts encoding.
* `decode?_eq_some_iff`: what is decoded are the bytes of a text.
* `lossy_append`: bytes show piece by piece, if no piece begins inside a character.
-/
namespace FacadeStubs.Utf8

/-! ## Parts of a text -/

theorem encode_append (s t : List Char) : encode (s ++ t) = encode s ++ encode t := by
  simp [encode]

theorem encode_cons (c : Char) (s : List Char) :
    encode (c :: s) = String.utf8EncodeChar c ++ encode s := by
  simp [encode]

theorem bytesOf_append (s t : String) : bytesOf (s ++ t) = bytesOf s ++ bytesOf t := by
  simp [bytesOf, encode_append]

/-- The bytes of joined texts: the first one, and each other with the separator in front of it. -/
theorem bytesOf_joined_cons (separator t : String) (texts : List String) :
    bytesOf (joined separator (t :: texts)) =
      bytesOf t ++ texts.flatMap fun s => bytesOf separator ++ bytesOf s := by
  induction texts generalizing t with
  | nil => simp [joined]
  | cons s texts ih =>
    have hstep : joined separator (t :: s :: texts) =
        t ++ (separator ++ joined separator (s :: texts)) := by
      simp [joined, String.intercalate_cons_cons, String.append_assoc]
    rw [hstep, bytesOf_append, bytesOf_append, ih]
    simp

theorem bytesOf_ofList (s : List Char) : bytesOf (String.ofList s) = encode s := by
  simp [bytesOf]

theorem utf8EncodeChar_ascii {c : Char} (h : c.toNat < 128) :
    String.utf8EncodeChar c = [c.toNat.toUInt8] := by
  have hv : c.val.toNat ≤ 0x7f := Nat.le_of_lt_succ h
  simp only [String.utf8EncodeChar, if_pos hv]
  rfl

theorem encode_ascii {s : List Char} (h : ∀ c ∈ s, c.toNat < 128) :
    encode s = s.map fun c => c.toNat.toUInt8 := by
  induction s with
  | nil => rfl
  | cons c s ih =>
    rw [encode_cons, utf8EncodeChar_ascii (h c (by simp)), ih fun d hd => h d (by simp [hd])]
    rfl

/-- Only the character itself has a byte below 128. -/
theorem toNat_of_mem_utf8EncodeChar {c : Char} {b : UInt8} (hb : b ∈ String.utf8EncodeChar c)
    (h : b < 128) : c.toNat = b.toNat := by
  have hb' : b.toNat < 128 := UInt8.lt_iff_toNat_lt.1 h
  have hc : c.toNat = c.val.toNat := rfl
  simp only [String.utf8EncodeChar] at hb
  split at hb
  · obtain rfl : b = UInt8.ofNat c.val.toNat := by simpa using hb
    rw [UInt8.toNat_ofNat']
    omega
  · exfalso
    have hn : ∀ n, b = UInt8.ofNat n → 128 ≤ n → n < 256 → False := by
      rintro n rfl h1 h2
      rw [UInt8.toNat_ofNat'] at hb'
      omega
    split at hb
    · simp only [List.mem_cons, List.not_mem_nil, or_false] at hb
      rcases hb with hb | hb <;> exact hn _ hb (by omega) (by omega)
    · split at hb
      · simp only [List.mem_cons, List.not_mem_nil, or_false] at hb
        rcases hb with hb | hb | hb <;> exact hn _ hb (by omega) (by omega)
      · simp only [List.mem_cons, List.not_mem_nil, or_false] at hb
        rcases hb with hb | hb | hb | hb <;> exact hn _ hb (by omega) (by omega)

/-- The byte of an ASCII character is that character in the text, and what is around it the texts around. -/
theorem encode_split {c : Char} (hc : c.toNat < 128) : ∀ {cs : List Char} {before after : Bytes},
    encode cs = before ++ c.toNat.toUInt8 :: after →
      ∃ front behind, cs = front ++ c :: behind ∧ encode front = before ∧ encode behind = after := by
  intro cs
  induction cs with
  | nil =>
    intro before after h
    cases before <;> cases h
  | cons d cs ih =>
    intro before after h
    rw [encode_cons] at h
    rcases List.append_eq_append_iff.1 h with ⟨t, rfl, ht⟩ | ⟨t, ht, hafter⟩
    · obtain ⟨front, behind, rfl, rfl, rfl⟩ := ih ht
      exact ⟨d :: front, behind, rfl, encode_cons d front, rfl⟩
    · cases t with
      | nil =>
        have hrest : encode cs = [] ++ c.toNat.toUInt8 :: after := hafter.symm
        obtain ⟨front, behind, rfl, hfront, rfl⟩ := ih hrest
        refine ⟨d :: front, behind, rfl, ?_, rfl⟩
        rw [encode_cons, hfront, ht, List.append_nil, List.append_nil]
      | cons b t =>
        -- the byte is one of the character's, so it is the character
        obtain ⟨rfl, rfl⟩ := List.cons.inj hafter
        have hb : c.toNat.toUInt8.toNat = c.toNat := by
          show c.toNat % 256 = c.toNat
          omega
        have hlt : c.toNat.toUInt8 < 128 := by
          rw [UInt8.lt_iff_toNat_lt, hb]
          exact hc
        have hmem : c.toNat.toUInt8 ∈ String.utf8EncodeChar d := by
          rw [ht]
          exact List.mem_append_right _ List.mem_cons_self
        obtain rfl : d = c := Char.toNat_inj.1 ((toNat_of_mem_utf8EncodeChar hmem hlt).trans hb)
        rw [utf8EncodeChar_ascii hc] at ht
        cases before with
        | nil =>
          obtain ⟨-, rfl⟩ := List.cons.inj ht
          exact ⟨[], cs, rfl, rfl, rfl⟩
        | cons a before =>
          obtain ⟨-, hnil⟩ := List.cons.inj ht
          cases before <;> cases hnil

/-! ## Decoding what was encoded -/

theorem decodeFrom?_skip (s rest : Bytes) :
    decodeFrom? s.length (s ++ rest) = decodeFrom? 0 rest := by
  induction s with
  | nil => rfl
  | cons b s ih => simpa [decodeFrom?] using ih

theorem isTail_iff {b : UInt8} : isTail b = true ↔ 128 ≤ b.toNat ∧ b.toNat ≤ 191 := by
  simp [isTail, UInt8.le_iff_toNat_le]

theorem toNat_ofNat_of_lt {n : Nat} (h : n < 256) : (UInt8.ofNat n).toNat = n := by
  rw [UInt8.toNat_ofNat']
  exact Nat.mod_eq_of_lt h

theorem isTail_ofNat (n : Nat) : isTail (UInt8.ofNat (n % 64 + 128)) = true := by
  rw [isTail_iff, toNat_ofNat_of_lt (by omega)]
  omega

theorem low_ofNat (n : Nat) : low (UInt8.ofNat (n % 64 + 128)) = n % 64 := by
  rw [low, toNat_ofNat_of_lt (by omega)]
  omega

/-- The second byte of a character, by the lead bytes that narrow it down. -/
theorem admits_of_toNat {a b : UInt8} (hb : 128 ≤ b.toNat ∧ b.toNat ≤ 191)
    (hE0 : a.toNat = 0xE0 → 0xA0 ≤ b.toNat) (hED : a.toNat = 0xED → b.toNat ≤ 0x9F)
    (hF0 : a.toNat = 0xF0 → 0x90 ≤ b.toNat) (hF4 : a.toNat = 0xF4 → b.toNat ≤ 0x8F) :
    admits a b = true := by
  have key : ∀ n : UInt8, (a == n) = true → a.toNat = n.toNat := by
    intro n hn
    rw [beq_iff_eq.1 hn]
  simp only [admits]
  split
  · rename_i h
    simpa [UInt8.le_iff_toNat_le] using ⟨hE0 (key _ h), hb.2⟩
  split
  · rename_i h
    simpa [UInt8.le_iff_toNat_le] using ⟨hb.1, hED (key _ h)⟩
  split
  · rename_i h
    simpa [UInt8.le_iff_toNat_le] using ⟨hF0 (key _ h), hb.2⟩
  split
  · rename_i h
    simpa [UInt8.le_iff_toNat_le] using ⟨hb.1, hF4 (key _ h)⟩
  · exact isTail_iff.2 hb

theorem head_one {v : Nat} (rest : Bytes) (h : v ≤ 0x7f) :
    head (UInt8.ofNat v) rest = (some (Char.ofNat v), 0) := by
  have hn := toNat_ofNat_of_lt (n := v) (by omega)
  have hlt : UInt8.ofNat v < 0x80 := by
    rw [UInt8.lt_iff_toNat_lt, hn]
    exact Nat.lt_succ_of_le h
  rw [head.eq_def, if_pos hlt, hn]

theorem head_two {v : Nat} (rest : Bytes) (h : 0x7f < v) (h' : v ≤ 0x7ff) :
    head (UInt8.ofNat (v / 64 % 32 + 192)) (UInt8.ofNat (v % 64 + 128) :: rest) =
      (some (Char.ofNat v), 1) := by
  have hn := toNat_ofNat_of_lt (n := v / 64 % 32 + 192) (by omega)
  generalize UInt8.ofNat (v / 64 % 32 + 192) = a at hn
  have h1 : ¬ a < 0x80 := by
    rw [UInt8.lt_iff_toNat_lt, hn]; simp
  have h2 : (0xC2 ≤ a && a ≤ 0xDF) = true := by
    simp [UInt8.le_iff_toNat_le, hn]; omega
  have hv : a.toNat % 32 * 64 + low (UInt8.ofNat (v % 64 + 128)) = v := by
    rw [low_ofNat]; omega
  rw [head, if_neg h1, if_pos h2]
  simp only [isTail_ofNat, if_true, hv]

theorem head_three {v : Nat} (rest : Bytes) (h : 0x7ff < v) (h' : v ≤ 0xffff)
    (hs : ¬ (0xD800 ≤ v ∧ v ≤ 0xDFFF)) :
    head (UInt8.ofNat (v / 4096 % 16 + 224))
      (UInt8.ofNat (v / 64 % 64 + 128) :: UInt8.ofNat (v % 64 + 128) :: rest) =
      (some (Char.ofNat v), 2) := by
  have hn := toNat_ofNat_of_lt (n := v / 4096 % 16 + 224) (by omega)
  generalize UInt8.ofNat (v / 4096 % 16 + 224) = a at hn
  have hb := toNat_ofNat_of_lt (n := v / 64 % 64 + 128) (by omega)
  have h1 : ¬ a < 0x80 := by
    rw [UInt8.lt_iff_toNat_lt, hn]; simp
  have h2 : ¬ (0xC2 ≤ a && a ≤ 0xDF) = true := by
    simp [UInt8.le_iff_toNat_le, hn]
  have h3 : (0xE0 ≤ a && a ≤ 0xEF) = true := by
    simp [UInt8.le_iff_toNat_le, hn]; omega
  have h4 : admits a (UInt8.ofNat (v / 64 % 64 + 128)) = true := by
    apply admits_of_toNat <;> rw [hb] <;> omega
  have hv : (a.toNat % 16 * 64 + low (UInt8.ofNat (v / 64 % 64 + 128))) * 64 +
      low (UInt8.ofNat (v % 64 + 128)) = v := by
    rw [low_ofNat, low_ofNat]; omega
  rw [head, if_neg h1, if_neg h2, if_pos h3]
  simp only [h4, isTail_ofNat, Bool.not_true, Bool.false_eq_true, if_false, hv]

theorem head_four {v : Nat} (rest : Bytes) (h : 0xffff < v) (h' : v < 0x110000) :
    head (UInt8.ofNat (v / 262144 % 8 + 240))
      (UInt8.ofNat (v / 4096 % 64 + 128) :: UInt8.ofNat (v / 64 % 64 + 128) ::
        UInt8.ofNat (v % 64 + 128) :: rest) = (some (Char.ofNat v), 3) := by
  have hn := toNat_ofNat_of_lt (n := v / 262144 % 8 + 240) (by omega)
  generalize UInt8.ofNat (v / 262144 % 8 + 240) = a at hn
  have hb := toNat_ofNat_of_lt (n := v / 4096 % 64 + 128) (by omega)
  have h1 : ¬ a < 0x80 := by
    rw [UInt8.lt_iff_toNat_lt, hn]; simp
  have h2 : ¬ (0xC2 ≤ a && a ≤ 0xDF) = true := by
    simp [UInt8.le_iff_toNat_le, hn]
  have h3 : ¬ (0xE0 ≤ a && a ≤ 0xEF) = true := by
    simp [UInt8.le_iff_toNat_le, hn]
  have h4 : (0xF0 ≤ a && a ≤ 0xF4) = true := by
    simp [UInt8.le_iff_toNat_le, hn]; omega
  have h5 : admits a (UInt8.ofNat (v / 4096 % 64 + 128)) = true := by
    apply admits_of_toNat <;> rw [hb] <;> omega
  have hv : ((a.toNat % 8 * 64 + low (UInt8.ofNat (v / 4096 % 64 + 128))) * 64 +
      low (UInt8.ofNat (v / 64 % 64 + 128))) * 64 + low (UInt8.ofNat (v % 64 + 128)) = v := by
    rw [low_ofNat, low_ofNat, low_ofNat]; omega
  rw [head, if_neg h1, if_neg h2, if_neg h3, if_pos h4]
  simp only [h5, isTail_ofNat, Bool.not_true, Bool.false_eq_true, if_false, hv]

/-- The first character of an encoded text is read whole. -/
theorem head_utf8EncodeChar (c : Char) (rest : Bytes) :
    ∃ a s, String.utf8EncodeChar c = a :: s ∧ head a (s ++ rest) = (some c, s.length) := by
  have hvalid := c.valid
  simp only [UInt32.isValidChar, Nat.isValidChar] at hvalid
  have hc : Char.ofNat c.val.toNat = c := Char.ofNat_toNat c
  simp only [String.utf8EncodeChar]
  split
  · rename_i h
    exact ⟨_, _, rfl, by rw [List.nil_append, head_one rest h, hc]; rfl⟩
  split
  · rename_i h h'
    exact ⟨_, _, rfl, by rw [List.cons_append, List.nil_append, head_two rest (by omega) h', hc]; rfl⟩
  split
  · rename_i h h'
    exact ⟨_, _, rfl, by
      rw [List.cons_append, List.cons_append, List.nil_append,
        head_three rest (by omega) h' (by omega), hc]; rfl⟩
  · rename_i h
    exact ⟨_, _, rfl, by
      rw [List.cons_append, List.cons_append, List.cons_append, List.nil_append,
        head_four rest (by omega) (by omega), hc]; rfl⟩

theorem decodeFrom?_encode (cs : List Char) : decodeFrom? 0 (encode cs) = some cs := by
  induction cs with
  | nil => rfl
  | cons c cs ih =>
    obtain ⟨a, s, he, hh⟩ := head_utf8EncodeChar c (encode cs)
    rw [encode_cons, he, List.cons_append, decodeFrom?, hh]
    simp only [decodeFrom?_skip, ih, Option.map_some]

/-- Decoding inverts encoding. -/
theorem decode?_encode (cs : List Char) : decode? (encode cs) = some cs := decodeFrom?_encode cs

theorem lossyFrom_skip (s rest : Bytes) : lossyFrom s.length (s ++ rest) = lossyFrom 0 rest := by
  induction s with
  | nil => rfl
  | cons b s ih => simpa [lossyFrom] using ih

/-- The bytes of a text show as the text. -/
theorem lossy_encode (cs : List Char) : lossy (encode cs) = cs := by
  show lossyFrom 0 (encode cs) = cs
  induction cs with
  | nil => rfl
  | cons c cs ih =>
    obtain ⟨a, s, he, hh⟩ := head_utf8EncodeChar c (encode cs)
    rw [encode_cons, he, List.cons_append, lossyFrom, hh, Option.getD_some, lossyFrom_skip, ih]

theorem bytesOf_inj {s t : String} (h : bytesOf s = bytesOf t) : s = t := by
  have hdecode : decode? (bytesOf s) = decode? (bytesOf t) := congrArg decode? h
  rw [bytesOf, bytesOf, decode?_encode, decode?_encode, Option.some.injEq] at hdecode
  exact String.toList_inj.1 hdecode

/-! ## Encoding what was decoded -/

theorem val_ofNat {v : Nat} (h : v.isValidChar) : (Char.ofNat v).val.toNat = v := by
  unfold Char.ofNat
  rw [dif_pos h]
  rfl

theorem ofNat_eq {n : Nat} {b : UInt8} (h : n = b.toNat) : UInt8.ofNat n = b := by
  rw [h, UInt8.ofNat_toNat]

/-- What a lead byte demands of the byte behind it. -/
theorem bounds_of_admits {a b : UInt8} (h : admits a b = true) :
    (128 ≤ b.toNat ∧ b.toNat ≤ 191) ∧ (a.toNat = 0xE0 → 0xA0 ≤ b.toNat) ∧
      (a.toNat = 0xED → b.toNat ≤ 0x9F) ∧ (a.toNat = 0xF0 → 0x90 ≤ b.toNat) ∧
      (a.toNat = 0xF4 → b.toNat ≤ 0x8F) := by
  have hne : ∀ {n : UInt8}, ¬(a == n) = true → a.toNat ≠ n.toNat := fun hn heq =>
    hn (beq_iff_eq.2 (UInt8.toNat_inj.1 heq))
  have heq : ∀ {n : UInt8}, (a == n) = true → a.toNat = n.toNat := fun hn => by rw [beq_iff_eq.1 hn]
  have hrange : ∀ {lo hi : UInt8}, (lo ≤ b && b ≤ hi) = true → lo.toNat ≤ b.toNat ∧ b.toNat ≤ hi.toNat := by
    intro lo hi hb
    simpa [UInt8.le_iff_toNat_le] using hb
  unfold admits at h
  split at h
  next hE0 =>
    have hlead := heq hE0
    have hb := hrange h
    simp only [UInt8.reduceToNat] at hlead hb
    omega
  next hE0 =>
  split at h
  next hED =>
    have hlead := heq hED
    have hb := hrange h
    simp only [UInt8.reduceToNat] at hlead hb
    omega
  next hED =>
  split at h
  next hF0 =>
    have hlead := heq hF0
    have hb := hrange h
    simp only [UInt8.reduceToNat] at hlead hb
    omega
  next hF0 =>
  split at h
  next hF4 =>
    have hlead := heq hF4
    have hb := hrange h
    simp only [UInt8.reduceToNat] at hlead hb
    omega
  next hF4 =>
    exact ⟨isTail_iff.1 h, fun h => (hne hE0 h).elim, fun h => (hne hED h).elim,
      fun h => (hne hF0 h).elim, fun h => (hne hF4 h).elim⟩

section
variable {a b c d : UInt8}

theorem encode_one (ha : a.toNat < 128) : String.utf8EncodeChar (Char.ofNat a.toNat) = [a] := by
  have hval : (Char.ofNat a.toNat).val.toNat = a.toNat := val_ofNat (.inl (by omega))
  rw [String.utf8EncodeChar, hval, if_pos (by omega), UInt8.ofNat_toNat]

theorem encode_two (ha : 0xC2 ≤ a.toNat ∧ a.toNat ≤ 0xDF) (hb : isTail b = true) :
    String.utf8EncodeChar (Char.ofNat (a.toNat % 32 * 64 + low b)) = [a, b] := by
  have hb := isTail_iff.1 hb
  have hval := val_ofNat (v := a.toNat % 32 * 64 + low b) (.inl (by rw [low]; omega))
  rw [String.utf8EncodeChar, hval, low, if_neg (by omega), if_pos (by omega)]
  simp only [List.cons.injEq, and_true]
  exact ⟨ofNat_eq (by omega), ofNat_eq (by omega)⟩

theorem encode_three (ha : 0xE0 ≤ a.toNat ∧ a.toNat ≤ 0xEF) (hb : admits a b = true)
    (hc : isTail c = true) :
    String.utf8EncodeChar (Char.ofNat ((a.toNat % 16 * 64 + low b) * 64 + low c)) = [a, b, c] := by
  obtain ⟨hb, hE0, hED, -, -⟩ := bounds_of_admits hb
  have hc := isTail_iff.1 hc
  have hval := val_ofNat (v := (a.toNat % 16 * 64 + low b) * 64 + low c)
    (by rw [Nat.isValidChar, low, low]; omega)
  rw [String.utf8EncodeChar, hval, low, low, if_neg (by omega), if_neg (by omega), if_pos (by omega)]
  simp only [List.cons.injEq, and_true]
  exact ⟨ofNat_eq (by omega), ofNat_eq (by omega), ofNat_eq (by omega)⟩

theorem encode_four (ha : 0xF0 ≤ a.toNat ∧ a.toNat ≤ 0xF4) (hb : admits a b = true)
    (hc : isTail c = true) (hd : isTail d = true) :
    String.utf8EncodeChar (Char.ofNat (((a.toNat % 8 * 64 + low b) * 64 + low c) * 64 + low d)) =
      [a, b, c, d] := by
  obtain ⟨hb, -, -, hF0, hF4⟩ := bounds_of_admits hb
  have hc := isTail_iff.1 hc
  have hd := isTail_iff.1 hd
  have hval := val_ofNat (v := ((a.toNat % 8 * 64 + low b) * 64 + low c) * 64 + low d)
    (by rw [Nat.isValidChar, low, low, low]; omega)
  rw [String.utf8EncodeChar, hval, low, low, low, if_neg (by omega), if_neg (by omega), if_neg (by omega)]
  simp only [List.cons.injEq, and_true]
  exact ⟨ofNat_eq (by omega), ofNat_eq (by omega), ofNat_eq (by omega), ofNat_eq (by omega)⟩

end

/-- A character that is read off a byte string is what the bytes encode. -/
theorem encode_of_head {a : UInt8} {rest : Bytes} {c : Char} {n : Nat} (h : head a rest = (some c, n)) :
    ∃ s t, rest = s ++ t ∧ s.length = n ∧ String.utf8EncodeChar c = a :: s := by
  have hrange : ∀ {lo hi : UInt8}, (lo ≤ a && a ≤ hi) = true → lo.toNat ≤ a.toNat ∧ a.toNat ≤ hi.toNat := by
    intro lo hi ha
    simpa [UInt8.le_iff_toNat_le] using ha
  rw [head.eq_def] at h
  split at h
  next ha =>
    cases h
    exact ⟨[], rest, rfl, rfl, encode_one (UInt8.lt_iff_toNat_lt.1 ha)⟩
  split at h
  next ha =>
    cases rest with
    | nil => cases h
    | cons b rest =>
      simp only at h
      split at h
      next hb =>
        cases h
        exact ⟨[b], rest, rfl, rfl, encode_two (hrange ha) hb⟩
      next => cases h
  split at h
  next ha =>
    match rest, h with
    | b :: c' :: rest, h =>
      simp only [Bool.not_eq_true'] at h
      split at h
      next => cases h
      next hb =>
      split at h
      next => cases h
      next hc =>
        cases h
        exact ⟨[b, c'], rest, rfl, rfl, encode_three (hrange ha) (by simpa using hb) (by simpa using hc)⟩
    | [b], h =>
      simp only at h
      split at h <;> cases h
    | [], h => cases h
  split at h
  next ha =>
    match rest, h with
    | b :: c' :: d :: rest, h =>
      simp only [Bool.not_eq_true'] at h
      split at h
      next => cases h
      next hb =>
      split at h
      next => cases h
      next hc =>
      split at h
      next => cases h
      next hd =>
        cases h
        exact ⟨[b, c', d], rest, rfl, rfl,
          encode_four (hrange ha) (by simpa using hb) (by simpa using hc) (by simpa using hd)⟩
    | [b, c'], h =>
      simp only [Bool.not_eq_true'] at h
      split at h
      · cases h
      · split at h <;> cases h
    | [b], h =>
      simp only at h
      split at h <;> cases h
    | [], h => cases h
  cases h

theorem encode_of_decodeFrom? {cs : List Char} : ∀ {bytes : Bytes}, decodeFrom? 0 bytes = some cs →
    encode cs = bytes := by
  induction cs with
  | nil =>
    intro bytes h
    cases bytes with
    | nil => rfl
    | cons a rest =>
      rw [decodeFrom?] at h
      split at h
      · obtain ⟨_, _, hcons⟩ := Option.map_eq_some_iff.1 h
        cases hcons
      · cases h
  | cons c cs ih =>
    intro bytes h
    cases bytes with
    | nil => cases h
    | cons a rest =>
      rw [decodeFrom?] at h
      split at h
      next c' n hhead =>
        obtain ⟨more, hmore, hcons⟩ := Option.map_eq_some_iff.1 h
        obtain ⟨rfl, rfl⟩ := List.cons.inj hcons
        obtain ⟨s, t, rfl, rfl, hc⟩ := encode_of_head hhead
        rw [decodeFrom?_skip] at hmore
        rw [encode_cons, hc, ih hmore, List.cons_append]
      next => cases h

/-- Exactly the bytes of a text are decoded to it. -/
theorem decode?_eq_some_iff {bytes : Bytes} {cs : List Char} : decode? bytes = some cs ↔ encode cs = bytes := by
  constructor
  · exact encode_of_decodeFrom?
  · intro h
    rw [← h]
    exact decode?_encode cs

/-! ## Texts side by side -/

theorem not_admits {a b : UInt8} (h : isTail b = false) : admits a b = false := by
  refine Bool.eq_false_iff.2 fun hadmits => ?_
  rw [isTail_iff.2 (bounds_of_admits hadmits).1] at h
  cases h

/-- A character ends in front of a byte that continues none. -/
theorem head_append {a : UInt8} {rest w : Bytes} (h : ∀ b ∈ w.head?, isTail b = false) :
    head a (rest ++ w) = head a rest := by
  cases w with
  | nil => rw [List.append_nil]
  | cons x w =>
    have hx : isTail x = false := h x rfl
    have hadmits : ∀ a, admits a x = false := fun a => not_admits hx
    match rest with
    | [] => cases w with
      | nil => simp [head, hx, hadmits]
      | cons y w => cases w <;> simp [head, hx, hadmits]
    | [b] => cases w with
      | nil => simp only [head, List.cons_append, List.nil_append, hx]; grind
      | cons y w => simp only [head, List.cons_append, List.nil_append, hx]; grind
    | [b, c] => simp only [head, List.cons_append, List.nil_append, hx]; grind
    | b :: c :: d :: rest => rfl

theorem head_le (a : UInt8) (rest : Bytes) : (head a rest).2 ≤ rest.length := by
  unfold head
  split
  · exact Nat.zero_le _
  · match rest with
    | [] => simp
    | [b] => simp only [List.length_cons, List.length_nil]; grind
    | [b, c] => simp only [List.length_cons, List.length_nil]; grind
    | b :: c :: d :: rest => simp only [List.length_cons]; grind

theorem lossyFrom_append {w : Bytes} (h : ∀ b ∈ w.head?, isTail b = false) :
    ∀ (s : Bytes) {n : Nat}, n ≤ s.length → lossyFrom n (s ++ w) = lossyFrom n s ++ lossy w
  | [], 0, _ => rfl
  | _ :: s, n + 1, hn => lossyFrom_append h s (Nat.le_of_succ_le_succ hn)
  | a :: s, 0, _ => by
    rw [List.cons_append, lossyFrom, lossyFrom, head_append h, lossyFrom_append h s (head_le a s)]
    rfl

/-- Bytes show piece by piece, if no piece begins inside a character. -/
theorem lossy_append (s : Bytes) {w : Bytes} (h : ∀ b ∈ w.head?, isTail b = false) :
    lossy (s ++ w) = lossy s ++ lossy w :=
  lossyFrom_append h s (Nat.zero_le _)

/-- A byte below 128 shows as a character. -/
theorem lossy_cons_ascii {a : UInt8} (h : a < 0x80) (rest : Bytes) :
    lossy (a :: rest) = Char.ofNat a.toNat :: lossy rest := by
  have hhead : head a rest = (some (Char.ofNat a.toNat), 0) := if_pos h
  show lossyFrom 0 (a :: rest) = _
  rw [lossyFrom, hhead]
  rfl

/-- No text begins inside a character. -/
theorem isTail_head_encode {cs : List Char} : ∀ b ∈ (encode cs).head?, isTail b = false := by
  cases cs with
  | nil =>
    intro b hb
    cases hb
  | cons c cs =>
    obtain ⟨a, s, he, hh⟩ := head_utf8EncodeChar c (encode cs)
    intro b hb
    rw [encode_cons, he] at hb
    obtain rfl : a = b := by simpa using hb
    refine Bool.eq_false_iff.2 fun htail => ?_
    obtain ⟨hlow, hhigh⟩ := isTail_iff.1 htail
    have hone : ¬ a < 0x80 := by simp [UInt8.lt_iff_toNat_lt]; omega
    have htwo : (0xC2 ≤ a && a ≤ 0xDF) = false := by simp [UInt8.le_iff_toNat_le]; omega
    have hthree : (0xE0 ≤ a && a ≤ 0xEF) = false := by simp [UInt8.le_iff_toNat_le]; omega
    have hfour : (0xF0 ≤ a && a ≤ 0xF4) = false := by simp [UInt8.le_iff_toNat_le]; omega
    simp [head, hone, htwo, hthree, hfour] at hh

end FacadeStubs.Utf8
