import SheetImports.Text.Utf8

/-!
# Reading back what was written

Main statement: `units_encode`, the units of a written text are its characters. So both readers
give the text back (`decode_encode`, `decode?_encode`): no written text holds an ill-formed
sequence. And octets without an ill-formed sequence were written, so the strict reader reads
nothing else (`decode?_eq_some_iff`).
-/

namespace SheetImports.Utf8

/-! ## One octet -/

private theorem not_lt_of_le_toNat {b c : UInt8} {n : Nat} (hc : c.toNat ≤ n) (hb : n ≤ b.toNat) :
    ¬ b < c :=
  UInt8.not_lt.2 (UInt8.le_iff_toNat_le.2 (Nat.le_trans hc hb))

theorem lead_ascii {b : UInt8} (h : b.toNat < 0x80) :
    lead b = ([some (Char.ofNat b.toNat)], .between) := by
  have : b < 0x80 := UInt8.lt_iff_toNat_lt.2 h
  simp [lead, this]

theorem unitsFrom_cons (s : State) (b : UInt8) (bs : Bytes) :
    unitsFrom s (b :: bs) = (step s b).1 ++ unitsFrom (step s b).2 bs := rfl

/-- An octet in the range goes on with the sequence, or ends it if it was the last one owed. -/
theorem step_inside {owed : Nat} {low high b : UInt8} {bits : Nat}
    (hl : low.toNat ≤ b.toNat) (hh : b.toNat ≤ high.toNat) :
    step (.inside owed low high bits) b =
      if owed ≤ 1 then ([some (Char.ofNat (bits * 64 + (b.toNat - 0x80)))], .between)
      else ([], .inside (owed - 1) 0x80 0xBF (bits * 64 + (b.toNat - 0x80))) := by
  have h1 : low ≤ b := UInt8.le_iff_toNat_le.2 hl
  have h2 : b ≤ high := UInt8.le_iff_toNat_le.2 hh
  simp [step, h1, h2]

/-- The first octet of a sequence says how many more are owed and between which bounds the second
of them lies. -/
theorem lead_two {b : UInt8} (hl : 0xC2 ≤ b.toNat) (hh : b.toNat < 0xE0) :
    lead b = ([], .inside 1 0x80 0xBF (b.toNat - 0xC0)) := by
  have h1 : ¬ b < 0x80 := not_lt_of_le_toNat (by decide) hl
  have h2 : ¬ b < 0xC2 := not_lt_of_le_toNat (by decide) hl
  have h3 : b < 0xE0 := UInt8.lt_iff_toNat_lt.2 hh
  simp [lead, h1, h2, h3]

theorem lead_three {b : UInt8} (hl : 0xE0 ≤ b.toNat) (hh : b.toNat < 0xF0) :
    lead b = ([], .inside 2 (if b.toNat = 0xE0 then 0xA0 else 0x80)
      (if b.toNat = 0xED then 0x9F else 0xBF) (b.toNat - 0xE0)) := by
  have h1 : ¬ b < 0x80 := not_lt_of_le_toNat (by decide) hl
  have h2 : ¬ b < 0xC2 := not_lt_of_le_toNat (by decide) hl
  have h3 : ¬ b < 0xE0 := not_lt_of_le_toNat (by decide) hl
  have h4 : b < 0xF0 := UInt8.lt_iff_toNat_lt.2 hh
  have h5 : (b = 0xE0) = (b.toNat = 0xE0) := by rw [← UInt8.toNat_inj]; rfl
  have h6 : (b = 0xED) = (b.toNat = 0xED) := by rw [← UInt8.toNat_inj]; rfl
  simp [lead, h1, h2, h3, h4, h5, h6]

theorem lead_four {b : UInt8} (hl : 0xF0 ≤ b.toNat) (hh : b.toNat < 0xF5) :
    lead b = ([], .inside 3 (if b.toNat = 0xF0 then 0x90 else 0x80)
      (if b.toNat = 0xF4 then 0x8F else 0xBF) (b.toNat - 0xF0)) := by
  have h1 : ¬ b < 0x80 := not_lt_of_le_toNat (by decide) hl
  have h2 : ¬ b < 0xC2 := not_lt_of_le_toNat (by decide) hl
  have h3 : ¬ b < 0xE0 := not_lt_of_le_toNat (by decide) hl
  have h4 : ¬ b < 0xF0 := not_lt_of_le_toNat (by decide) hl
  have h7 : b < 0xF5 := UInt8.lt_iff_toNat_lt.2 hh
  have h5 : (b = 0xF0) = (b.toNat = 0xF0) := by rw [← UInt8.toNat_inj]; rfl
  have h6 : (b = 0xF4) = (b.toNat = 0xF4) := by rw [← UInt8.toNat_inj]; rfl
  simp [lead, h1, h2, h3, h4, h5, h6, h7]

private theorem toNat_ofNat_of_lt {n : Nat} (h : n < 256) : (UInt8.ofNat n).toNat = n := by
  simp [UInt8.toNat_ofNat', h]

/-! ## Characters and texts -/

/-- A written character is read back, whatever follows. -/
theorem unitsFrom_utf8EncodeChar (c : Char) (bytes : Bytes) :
    unitsFrom .between (String.utf8EncodeChar c ++ bytes) = some c :: unitsFrom .between bytes := by
  have hv : c.val.toNat < 0xD800 ∨ 0xDFFF < c.val.toNat ∧ c.val.toNat < 0x110000 := c.valid
  have hc : Char.ofNat c.val.toNat = c := Char.ofNat_toNat c
  unfold String.utf8EncodeChar
  generalize c.val.toNat = v at hv hc
  dsimp only
  by_cases h1 : v ≤ 0x7f
  · rw [if_pos h1]
    have e := toNat_ofNat_of_lt (n := v) (by omega)
    rw [List.cons_append, unitsFrom_cons, step, lead_ascii (by omega), e, hc]
    simp
  rw [if_neg h1]
  by_cases h2 : v ≤ 0x7ff
  · rw [if_pos h2]
    have e1 := toNat_ofNat_of_lt (n := v / 64 % 32 + 192) (by omega)
    have e2 := toNat_ofNat_of_lt (n := v % 64 + 128) (by omega)
    simp only [List.cons_append, List.nil_append]
    rw [unitsFrom_cons, step, lead_two (by omega) (by omega), unitsFrom_cons,
      step_inside (by simp; omega) (by simp; omega), e1, e2]
    have : v / 64 % 32 * 64 + v % 64 = v := by omega
    simp [this, hc]
  rw [if_neg h2]
  by_cases h3 : v ≤ 0xffff
  · rw [if_pos h3]
    have e1 := toNat_ofNat_of_lt (n := v / 4096 % 16 + 224) (by omega)
    have e2 := toNat_ofNat_of_lt (n := v / 64 % 64 + 128) (by omega)
    have e3 := toNat_ofNat_of_lt (n := v % 64 + 128) (by omega)
    simp only [List.cons_append, List.nil_append]
    rw [unitsFrom_cons, step, lead_three (by omega) (by omega), unitsFrom_cons,
      step_inside (by rw [e1, e2]; split <;> simp; omega)
        (by rw [e1, e2]; split <;> simp <;> omega), e1, e2]
    simp only [Nat.reduceLeDiff, ↓reduceIte, List.nil_append]
    rw [unitsFrom_cons, step_inside (by simp; omega) (by simp; omega), e3]
    have : (v / 4096 % 16 * 64 + v / 64 % 64) * 64 + v % 64 = v := by omega
    simp [this, hc]
  · rw [if_neg h3]
    have e1 := toNat_ofNat_of_lt (n := v / 262144 % 8 + 240) (by omega)
    have e2 := toNat_ofNat_of_lt (n := v / 4096 % 64 + 128) (by omega)
    have e3 := toNat_ofNat_of_lt (n := v / 64 % 64 + 128) (by omega)
    have e4 := toNat_ofNat_of_lt (n := v % 64 + 128) (by omega)
    simp only [List.cons_append, List.nil_append]
    rw [unitsFrom_cons, step, lead_four (by omega) (by omega), unitsFrom_cons,
      step_inside (by rw [e1, e2]; split <;> simp; omega)
        (by rw [e1, e2]; split <;> simp <;> omega), e1, e2]
    simp only [Nat.reduceLeDiff, ↓reduceIte, List.nil_append]
    rw [unitsFrom_cons, step_inside (by simp; omega) (by simp; omega), e3]
    simp only [Nat.reduceSub, Nat.reduceLeDiff, ↓reduceIte, List.nil_append]
    rw [unitsFrom_cons, step_inside (by simp; omega) (by simp; omega), e4]
    have : ((v / 262144 % 8 * 64 + v / 4096 % 64) * 64 + v / 64 % 64) * 64 + v % 64 = v := by
      omega
    simp [this, hc]

/-- What was written is read back. -/
theorem units_encode (text : Text) : units (encode text) = text.map some := by
  induction text with
  | nil => rfl
  | cons c text ih =>
    rw [encode, List.flatMap_cons, units, unitsFrom_utf8EncodeChar, List.map_cons]
    exact congrArg _ ih

theorem decode_encode (text : Text) : decode (encode text) = text := by
  rw [decode, units_encode, List.map_map]
  exact List.map_id'' (fun _ => rfl) text

theorem decode?_encode (text : Text) : decode? (encode text) = some text := by
  rw [decode?, units_encode]
  induction text with
  | nil => rfl
  | cons c text ih => simp_all

/-! ## Only what was written is read -/

/-- Inside a sequence, a well-formed rest begins with an octet in the range. -/
theorem exists_octet_of_inside {owed : Nat} {low high : UInt8} {bits : Nat} {bytes : Bytes}
    {text : Text} (h : unitsFrom (.inside owed low high bits) bytes = text.map some) :
    ∃ b rest, bytes = b :: rest ∧ low.toNat ≤ b.toNat ∧ b.toNat ≤ high.toNat ∧
      (if owed ≤ 1 then some (Char.ofNat (bits * 64 + (b.toNat - 0x80))) :: unitsFrom .between rest
        else unitsFrom (.inside (owed - 1) 0x80 0xBF (bits * 64 + (b.toNat - 0x80))) rest)
          = text.map some := by
  have hnone : none ∉ text.map some := by simp
  cases bytes with
  | nil =>
    rw [← h] at hnone
    exact absurd List.mem_cons_self hnone
  | cons b rest =>
    by_cases hb : low ≤ b ∧ b ≤ high
    · have hl := UInt8.le_iff_toNat_le.1 hb.1
      have hh := UInt8.le_iff_toNat_le.1 hb.2
      refine ⟨b, rest, rfl, hl, hh, ?_⟩
      rw [← h, unitsFrom_cons, step_inside hl hh]
      split <;> rfl
    · rw [← h, unitsFrom_cons, step, if_neg hb] at hnone
      exact absurd List.mem_cons_self hnone

private theorem toNat_val_ofNat {n : Nat} (h : n.isValidChar) : (Char.ofNat n).val.toNat = n := by
  rw [Char.ofNat, dif_pos h]
  rfl

theorem utf8EncodeChar_one {a : UInt8} (ha : a.toNat < 0x80) :
    String.utf8EncodeChar (Char.ofNat a.toNat) = [a] := by
  unfold String.utf8EncodeChar
  dsimp only
  rw [toNat_val_ofNat (Or.inl (by omega)), if_pos (by omega)]
  simp

/-- The octets of a sequence are those written for the character that they give. One lemma for each
width; where the first octet bounds the second, no shorter sequence gives that character. -/
theorem utf8EncodeChar_two {a b : UInt8} {n : Nat} (ha : 0xC2 ≤ a.toNat) (ha' : a.toNat < 0xE0)
    (hb : 0x80 ≤ b.toNat) (hb' : b.toNat ≤ 0xBF)
    (hn : n = (a.toNat - 0xC0) * 64 + (b.toNat - 0x80)) :
    String.utf8EncodeChar (Char.ofNat n) = [a, b] := by
  have hvalid : n.isValidChar := Or.inl (by omega)
  unfold String.utf8EncodeChar
  dsimp only
  rw [toNat_val_ofNat hvalid, if_neg (by omega), if_pos (by omega)]
  simp only [List.cons.injEq, and_true, ← UInt8.toNat_inj]
  rw [toNat_ofNat_of_lt (by omega), toNat_ofNat_of_lt (by omega)]
  omega

theorem utf8EncodeChar_three {a b c : UInt8} {n : Nat} (ha : 0xE0 ≤ a.toNat) (ha' : a.toNat < 0xF0)
    (hb : (if a.toNat = 0xE0 then 0xA0 else 0x80 : UInt8).toNat ≤ b.toNat)
    (hb' : b.toNat ≤ (if a.toNat = 0xED then 0x9F else 0xBF : UInt8).toNat)
    (hc : 0x80 ≤ c.toNat) (hc' : c.toNat ≤ 0xBF)
    (hn : n = ((a.toNat - 0xE0) * 64 + (b.toNat - 0x80)) * 64 + (c.toNat - 0x80)) :
    String.utf8EncodeChar (Char.ofNat n) = [a, b, c] := by
  have hrange : 0x80 ≤ b.toNat ∧ b.toNat ≤ 0xBF ∧ (a.toNat = 0xE0 → 0xA0 ≤ b.toNat) ∧
      (a.toNat = 0xED → b.toNat ≤ 0x9F) := by
    split at hb <;> split at hb' <;> simp at hb hb' <;> omega
  have hvalid : n < 0xD800 ∨ 0xDFFF < n ∧ n < 0x110000 := by omega
  unfold String.utf8EncodeChar
  dsimp only
  rw [toNat_val_ofNat hvalid, if_neg (by omega), if_neg (by omega), if_pos (by omega)]
  simp only [List.cons.injEq, and_true, ← UInt8.toNat_inj]
  rw [toNat_ofNat_of_lt (by omega), toNat_ofNat_of_lt (by omega), toNat_ofNat_of_lt (by omega)]
  obtain ⟨hlow, hhigh, -⟩ := hrange
  refine ⟨?_, ?_, ?_⟩ <;> omega

theorem utf8EncodeChar_four {a b c d : UInt8} {n : Nat} (ha : 0xF0 ≤ a.toNat) (ha' : a.toNat < 0xF5)
    (hb : (if a.toNat = 0xF0 then 0x90 else 0x80 : UInt8).toNat ≤ b.toNat)
    (hb' : b.toNat ≤ (if a.toNat = 0xF4 then 0x8F else 0xBF : UInt8).toNat)
    (hc : 0x80 ≤ c.toNat) (hc' : c.toNat ≤ 0xBF) (hd : 0x80 ≤ d.toNat) (hd' : d.toNat ≤ 0xBF)
    (hn : n = (((a.toNat - 0xF0) * 64 + (b.toNat - 0x80)) * 64 + (c.toNat - 0x80)) * 64
      + (d.toNat - 0x80)) :
    String.utf8EncodeChar (Char.ofNat n) = [a, b, c, d] := by
  have hrange : 0x80 ≤ b.toNat ∧ b.toNat ≤ 0xBF ∧ (a.toNat = 0xF0 → 0x90 ≤ b.toNat) ∧
      (a.toNat = 0xF4 → b.toNat ≤ 0x8F) := by
    split at hb <;> split at hb' <;> simp at hb hb' <;> omega
  have hvalid : n < 0xD800 ∨ 0xDFFF < n ∧ n < 0x110000 := by omega
  unfold String.utf8EncodeChar
  dsimp only
  rw [toNat_val_ofNat hvalid, if_neg (by omega), if_neg (by omega), if_neg (by omega)]
  simp only [List.cons.injEq, and_true, ← UInt8.toNat_inj]
  rw [toNat_ofNat_of_lt (by omega), toNat_ofNat_of_lt (by omega), toNat_ofNat_of_lt (by omega),
    toNat_ofNat_of_lt (by omega)]
  obtain ⟨hlow, hhigh, -⟩ := hrange
  refine ⟨?_, ?_, ?_, ?_⟩ <;> omega

/-- Octets that only continue a sequence, or would begin an overlong or too large one. -/
theorem lead_ill_formed {b : UInt8}
    (h : 0x80 ≤ b.toNat ∧ b.toNat < 0xC2 ∨ 0xF5 ≤ b.toNat) : lead b = ([none], .between) := by
  unfold lead
  simp only [UInt8.lt_iff_toNat_lt, UInt8.reduceToNat]
  rw [if_neg (by omega)]
  rcases h with h | h
  · rw [if_pos h.2]
  · rw [if_neg (by omega), if_neg (by omega), if_neg (by omega), if_neg (by omega)]

/-- Well-formed octets begin with a written character. -/
theorem exists_char_of_unitsFrom {b : UInt8} {bytes : Bytes} {text : Text}
    (h : unitsFrom .between (b :: bytes) = text.map some) :
    ∃ c rest text', b :: bytes = String.utf8EncodeChar c ++ rest ∧ text = c :: text' ∧
      unitsFrom .between rest = text'.map some := by
  have hlead : lead b ≠ ([none], .between) := by
    intro hlead
    rw [unitsFrom_cons, step, hlead] at h
    cases text <;> cases h
  have hfirst := mt lead_ill_formed hlead
  rw [unitsFrom_cons, step] at h
  by_cases hone : b.toNat < 0x80
  · rw [lead_ascii hone] at h
    obtain ⟨c, text', rfl, hc, hrest⟩ := List.map_eq_cons_iff.1 h.symm
    have hbytes := utf8EncodeChar_one hone
    exact ⟨c, bytes, text', by rw [Option.some.inj hc, hbytes]; rfl, rfl, hrest.symm⟩
  by_cases htwo : b.toNat < 0xE0
  · rw [lead_two (by omega) htwo] at h
    obtain ⟨second, rest, rfl, hl, hh, h⟩ := exists_octet_of_inside h
    rw [if_pos (Nat.le_refl 1)] at h
    obtain ⟨c, text', rfl, hc, hrest⟩ := List.map_eq_cons_iff.1 h.symm
    have hbytes := utf8EncodeChar_two (by omega) htwo hl hh rfl
    exact ⟨c, rest, text', by rw [Option.some.inj hc, hbytes]; rfl, rfl, hrest.symm⟩
  by_cases hthree : b.toNat < 0xF0
  · rw [lead_three (by omega) hthree] at h
    obtain ⟨second, rest, rfl, hl, hh, h⟩ := exists_octet_of_inside h
    obtain ⟨third, rest, rfl, hl', hh', h⟩ := exists_octet_of_inside h
    rw [if_pos (Nat.le_refl 1)] at h
    obtain ⟨c, text', rfl, hc, hrest⟩ := List.map_eq_cons_iff.1 h.symm
    have hbytes := utf8EncodeChar_three (by omega) hthree hl hh hl' hh' rfl
    exact ⟨c, rest, text', by rw [Option.some.inj hc, hbytes]; rfl, rfl, hrest.symm⟩
  · have hfour : b.toNat < 0xF5 := by omega
    rw [lead_four (by omega) hfour] at h
    obtain ⟨second, rest, rfl, hl, hh, h⟩ := exists_octet_of_inside h
    obtain ⟨third, rest, rfl, hl', hh', h⟩ := exists_octet_of_inside h
    obtain ⟨fourth, rest, rfl, hl'', hh'', h⟩ := exists_octet_of_inside h
    rw [if_pos (Nat.le_refl 1)] at h
    obtain ⟨c, text', rfl, hc, hrest⟩ := List.map_eq_cons_iff.1 h.symm
    have hbytes := utf8EncodeChar_four (by omega) hfour hl hh hl' hh' hl'' hh'' rfl
    exact ⟨c, rest, text', by rw [Option.some.inj hc, hbytes]; rfl, rfl, hrest.symm⟩

/-- Octets without an ill-formed sequence are what their units write. -/
theorem eq_encode_of_units {bytes : Bytes} {text : Text} (h : units bytes = text.map some) :
    bytes = encode text := by
  induction text generalizing bytes with
  | nil =>
    cases bytes with
    | nil => rfl
    | cons b bytes =>
      obtain ⟨c, rest, text', -, htext, -⟩ := exists_char_of_unitsFrom h
      cases htext
  | cons c text ih =>
    cases bytes with
    | nil => cases h
    | cons b bytes =>
      obtain ⟨c', rest, text', hbytes, htext, hrest⟩ := exists_char_of_unitsFrom h
      obtain ⟨rfl, rfl⟩ := List.cons.inj htext
      rw [hbytes, ih hrest]
      rfl

theorem units_of_decode? {bytes : Bytes} {text : Text} (h : decode? bytes = some text) :
    units bytes = text.map some := by
  rw [decode?] at h
  generalize units bytes = found at h
  induction found generalizing text with
  | nil =>
    obtain rfl : [] = text := Option.some.inj h
    rfl
  | cons unit found ih =>
    rw [List.mapM_cons] at h
    obtain ⟨c, hunit, h⟩ := Option.bind_eq_some_iff.1 h
    obtain ⟨text', htext, h⟩ := Option.bind_eq_some_iff.1 h
    obtain rfl := Option.some.inj h
    rw [ih htext, List.map_cons, ← hunit]
    rfl

/-- The strict reader reads what was written, and nothing else. -/
theorem decode?_eq_some_iff {bytes : Bytes} {text : Text} :
    decode? bytes = some text ↔ bytes = encode text :=
  ⟨fun h => eq_encode_of_units (units_of_decode? h), fun h => by rw [h, decode?_encode]⟩

end SheetImports.Utf8
