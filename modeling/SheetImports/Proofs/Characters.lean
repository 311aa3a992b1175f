import SheetImports.Proofs.Blanking

/-!
# Scans that end between two characters

The scanner jumps over octets and takes every octet behind a backslash along, whatever it is. Still
every stretch that it cuts out begins and ends between two characters: wherever it stops, an ASCII
octet stands on one side of the joint or the text ends there (`Joint`), and ASCII octets stand alone
(`IsText.of_joint`). So what is left when comments are blanked out is a text again
(`isText_blank`).
-/

namespace SheetImports.Stylesheet

open Utf8

/-! ## Whole characters -/

/-- The octets are those of whole characters. -/
def IsText (bytes : Bytes) : Prop := ∃ text, bytes = encode text

theorem isText_nil : IsText [] := ⟨[], rfl⟩

theorem IsText.append {x y : Bytes} (hx : IsText x) (hy : IsText y) : IsText (x ++ y) := by
  obtain ⟨first, rfl⟩ := hx
  obtain ⟨second, rfl⟩ := hy
  exact ⟨first ++ second, (encode_append first second).symm⟩

/-- An ASCII octet stands alone: what is before it and what is behind it are whole characters. -/
theorem IsText.split {x y : Bytes} {b : UInt8} (hb : b < 0x80) (h : IsText (x ++ b :: y)) :
    IsText x ∧ IsText (b :: y) ∧ IsText y := by
  obtain ⟨text, htext⟩ := h
  induction text generalizing x with
  | nil => cases (List.append_eq_nil_iff.1 htext).2
  | cons c text ih =>
    rcases Nat.lt_or_ge c.toNat 0x80 with hlt | hge
    · cases x with
      | nil =>
        refine ⟨isText_nil, ⟨_, htext⟩, text, ?_⟩
        rw [encode_cons_of_lt hlt] at htext
        exact (List.cons.inj htext).2
      | cons d x =>
        rw [encode_cons_of_lt hlt] at htext
        obtain ⟨rfl, hrest⟩ := List.cons.inj htext
        obtain ⟨⟨before, rfl⟩, hy⟩ := ih hrest
        exact ⟨⟨c :: before, (encode_cons_of_lt hlt before).symm⟩, hy⟩
    · rw [encode_cons, List.append_eq_append_iff] at htext
      rcases htext with ⟨middle, hchar, hrest⟩ | ⟨middle, rfl, hrest⟩
      · cases middle with
        | nil =>
          rw [List.append_nil] at hchar
          obtain ⟨-, hy⟩ := ih (x := []) hrest
          exact ⟨⟨[c], by rw [← hchar, encode_cons, encode_nil, List.append_nil]⟩, hy⟩
        | cons d middle =>
          -- the octet would belong to a character that is not ASCII
          have hmem : b ∈ String.utf8EncodeChar c := by
            rw [hchar, (List.cons.inj hrest).1]
            exact List.mem_append_right _ List.mem_cons_self
          exact absurd hb (UInt8.not_lt.2 (le_of_mem_utf8EncodeChar hge hmem))
      · obtain ⟨⟨before, rfl⟩, hy⟩ := ih hrest.symm
        exact ⟨⟨c :: before, (encode_cons c before).symm⟩, hy⟩

theorem IsText.tail {b : UInt8} {bytes : Bytes} (hb : b < 0x80) (h : IsText (b :: bytes)) :
    IsText bytes :=
  (IsText.split (x := []) hb h).2.2

theorem isText_of_ascii {bytes : Bytes} (h : ∀ b ∈ bytes, b < 0x80) : IsText bytes := by
  induction bytes with
  | nil => exact isText_nil
  | cons b bytes ih =>
    obtain ⟨text, rfl⟩ := ih fun d hd => h d (List.mem_cons_of_mem _ hd)
    have hb : b.toNat < 0x80 := UInt8.lt_iff_toNat_lt.1 (h b List.mem_cons_self)
    have hall : ∀ n < 0x80, (Char.ofNat n).toNat = n := by decide
    have hchar := hall b.toNat hb
    refine ⟨Char.ofNat b.toNat :: text, ?_⟩
    rw [encode_cons_of_lt (by omega), octet, hchar, UInt8.ofNat_toNat]

/-! ## Joints -/

/-- The second part is empty or begins with an ASCII octet, or the first part ends with one. -/
inductive Joint : Bytes → Bytes → Prop
  | atEnd (x : Bytes) : Joint x []
  | before {b : UInt8} (hb : b < 0x80) (x y : Bytes) : Joint x (b :: y)
  | behind {b : UInt8} (hb : b < 0x80) (x y : Bytes) : Joint (x ++ [b]) y

theorem Joint.append_left {x y : Bytes} (h : Joint x y) (first : Bytes) : Joint (first ++ x) y := by
  cases h with
  | atEnd => exact .atEnd _
  | before hb _ y => exact .before hb _ y
  | behind hb x _ =>
    rw [← List.append_assoc]
    exact .behind hb _ y

theorem Joint.cons {x y : Bytes} (h : Joint x y) (b : UInt8) : Joint (b :: x) y :=
  h.append_left [b]

/-- A text that is cut at a joint falls into two texts. -/
theorem IsText.of_joint {x y : Bytes} (h : IsText (x ++ y)) (hjoint : Joint x y) :
    IsText x ∧ IsText y := by
  cases hjoint with
  | atEnd =>
    rw [List.append_nil] at h
    exact ⟨h, isText_nil⟩
  | before hb _ y =>
    obtain ⟨hx, hy, -⟩ := h.split hb
    exact ⟨hx, hy⟩
  | behind hb x _ =>
    rw [List.append_assoc, List.singleton_append] at h
    obtain ⟨hx, -, hy⟩ := h.split hb
    refine ⟨hx.append (isText_of_ascii fun d hd => ?_), hy⟩
    rwa [List.mem_singleton.1 hd]

theorem isQuote_lt {b : UInt8} (h : isQuote b = true) : b < 0x80 := by
  by_contra hb
  rw [isQuote_of_le (UInt8.not_lt.1 hb)] at h
  cases h

/-- A literal ends at its quote, at a line feed or with the text, even if the octet that a backslash
takes along is only the first of a character. -/
theorem joint_literalTail {quote : UInt8} (hquote : quote < 0x80) (bytes : Bytes) :
    Joint (literalTail quote bytes).1 (literalTail quote bytes).2 := by
  fun_induction literalTail quote bytes with
  | case1 => exact .atEnd _
  | case2 => exact .atEnd _
  | case3 e bytes ih => exact (ih.cons e).cons backslash
  | case4 => exact .before (by decide) _ _
  | case5 => exact .behind hquote [] _
  | case6 b bytes _ _ _ ih => exact ih.cons b

/-- A scan that goes on over all octets above ASCII stops between two characters. -/
theorem joint_span {p : UInt8 → Bool} (hstop : ∀ b, p b = false → b < 0x80) (bytes : Bytes) :
    Joint (bytes.takeWhile p) (bytes.dropWhile p) := by
  induction bytes with
  | nil => exact .atEnd _
  | cons b bytes ih =>
    cases hb : p b with
    | true =>
      rw [List.takeWhile_cons_of_pos hb, List.dropWhile_cons_of_pos hb]
      exact ih.cons b
    | false =>
      rw [List.takeWhile_cons_of_neg (by simp [hb]), List.dropWhile_cons_of_neg (by simp [hb])]
      exact .before (hstop b hb) _ _

theorem dropWhile_ne_cases (d : UInt8) (bytes : Bytes) :
    bytes.dropWhile (· ≠ d) = [] ∨ ∃ rest, bytes.dropWhile (· ≠ d) = d :: rest := by
  cases hrest : bytes.dropWhile (· ≠ d) with
  | nil => exact .inl rfl
  | cons b rest =>
    have hstop := List.head?_dropWhile_not (· ≠ d) bytes
    rw [hrest] at hstop
    obtain rfl : b = d := by simpa using hstop
    exact .inr ⟨rest, rfl⟩

/-- What stops before one ASCII octet stops behind it as well. -/
theorem joint_through {d : UInt8} (hd : d < 0x80) (bytes : Bytes) :
    Joint (bytes.takeWhile (· ≠ d) ++ (bytes.dropWhile (· ≠ d)).take 1)
      ((bytes.dropWhile (· ≠ d)).drop 1) := by
  rcases dropWhile_ne_cases d bytes with hrest | ⟨rest, hrest⟩
  · rw [hrest]
    exact .atEnd _
  · rw [hrest]
    exact .behind hd _ rest

theorem lt_of_lower_lt {b : UInt8} (h : lower b < 0x80) : b < 0x80 := by
  by_contra hb
  rw [lower_of_le (UInt8.not_lt.1 hb)] at h
  exact hb h

theorem urlWord_lt : ∀ w ∈ urlWord, w < 0x80 := forall_mem_of_all (by decide)

theorem importWord_lt : ∀ w ∈ importWord, w < 0x80 := forall_mem_of_all (by decide)

/-! ## Pieces -/

/-- A block comment that is not closed takes the rest of the text. -/
theorem blockBody_open {bytes : Bytes} (h : (blockBody bytes).2.2 = false) :
    (blockBody bytes).2.1 = [] := by
  fun_induction blockBody bytes with
  | case1 => rfl
  | case2 => cases h
  | case3 b bytes _ ih => exact ih h

/-- A piece that begins with an ASCII octet ends between two characters. -/
theorem joint_next {b : UInt8} (hb : b < 0x80) (bytes : Bytes) :
    Joint (next b bytes).1.source (next b bytes).2 := by
  unfold next
  split
  · exact (joint_literalTail hb bytes).cons b
  · split
    · next after _ =>
      rw [Piece.source, urlValue, List.append_assoc]
      exact (joint_through (by decide) after).append_left _
    · split
      · exact ((joint_span (fun d hd => by simp at hd; rw [hd]; decide) _).cons slash).cons slash
      · split
        · cases hclosed : (blockBody (bytes.drop 1)).2.2 with
          | true =>
            have hend : Joint ([star] ++ [slash]) (blockBody (bytes.drop 1)).2.1 :=
              .behind (by decide) _ _
            exact ((hend.append_left (blockBody (bytes.drop 1)).1).cons star).cons slash
          | false =>
            rw [blockBody_open hclosed]
            exact .atEnd _
        · exact .behind hb [] bytes

/-- Cutting a piece off a text leaves two texts. -/
theorem isText_next {b : UInt8} (hb : b < 0x80) {bytes : Bytes} (h : IsText (b :: bytes)) :
    IsText (next b bytes).1.source ∧ IsText (next b bytes).2 := by
  rw [← source_next_append b bytes] at h
  exact h.of_joint (joint_next hb bytes)

/-- What is left of a piece of whole characters is of whole characters. -/
theorem isText_blanked {piece : Piece} (h : IsText piece.source) : IsText piece.blanked := by
  cases piece with
  | literal => exact h
  | url => exact h
  | lineComment => exact isText_nil
  | blockComment body closed =>
    refine isText_of_ascii fun b hb => ?_
    rcases List.mem_append.1 hb with hb | hb
    · rw [eq_of_beq (List.mem_filter.1 hb).2]
      decide
    · rw [List.mem_singleton.1 hb]
      decide
  | plain => exact h

/-- A text is gone through as the first scan does it: a character that is not ASCII is passed alone,
and where an ASCII character stands, a piece of whole characters begins. -/
theorem text_induction {motive : Text → Prop} (nil : motive [])
    (high : ∀ (c : Char) (text : Text), 0x80 ≤ c.toNat → motive text → motive (c :: text))
    (piece : ∀ (b : UInt8) (bytes : Bytes) (first rest : Text),
      encode (first ++ rest) = b :: bytes → (next b bytes).1.source = encode first →
        (next b bytes).2 = encode rest → motive rest → motive (first ++ rest)) (text : Text) :
    motive text := by
  obtain ⟨n, hn⟩ : ∃ n, text.length < n := ⟨_, Nat.lt_succ_self _⟩
  induction n generalizing text with
  | zero => cases hn
  | succ n ih =>
    cases text with
    | nil => exact nil
    | cons c text =>
      rcases Nat.lt_or_ge c.toNat 0x80 with hlt | hge
      · have htext : encode (c :: text) = octet c :: encode text := encode_cons_of_lt hlt text
        have hoctet : octet c < 0x80 := UInt8.lt_iff_toNat_lt.2 (by rw [octet_toNat hlt]; exact hlt)
        obtain ⟨⟨first, hfirst⟩, rest, hrest⟩ := isText_next hoctet ⟨c :: text, htext.symm⟩
        have hsplit : c :: text = first ++ rest := by
          rw [← decode_encode (c :: text), htext, ← source_next_append, hfirst, hrest,
            ← encode_append, decode_encode]
        have hpos : 0 < first.length := by
          refine List.length_pos_iff.2 fun hnil => source_next_ne_nil (octet c) (encode text) ?_
          rw [hfirst, hnil, encode_nil]
        have hlength := congrArg List.length hsplit
        rw [List.length_append] at hlength
        rw [hsplit] at htext ⊢
        exact piece _ _ _ _ htext hfirst hrest (ih rest (by omega))
      · exact high c text hge (ih text (Nat.lt_of_succ_lt_succ hn))

/-- What is left of a text when its comments are blanked out is a text. -/
theorem isText_blank {bytes : Bytes} (h : IsText bytes) : IsText (blank bytes) := by
  obtain ⟨text, rfl⟩ := h
  induction text using text_induction with
  | nil =>
    rw [encode_nil, blank_nil]
    exact isText_nil
  | high c text hge ih =>
    rw [encode_cons, blank_append_of_plain fun b hb =>
      beginsNoPiece_of_le (le_of_mem_utf8EncodeChar hge hb)]
    exact IsText.append ⟨[c], by rw [encode_cons, encode_nil, List.append_nil]⟩ ih
  | piece b bytes first rest htext hfirst hrest ih =>
    rw [htext, blank_cons, hrest]
    exact (isText_blanked ⟨first, hfirst⟩).append ih

end SheetImports.Stylesheet
