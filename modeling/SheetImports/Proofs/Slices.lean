import SheetImports.Proofs.Scan

/-!
# Where the scan for statements reads

The second scan goes from one position of a text to the next, and reads slices of the text between
such positions. Every one of its steps leads from between two characters to between two characters
(`StandsIn.carried`), so each slice that it reads is one of whole characters, inside the text
(`fits_statements`).
-/

namespace SheetImports

/-- The position lies between two characters of the text, or at one of its ends. -/
def Utf8.IsBoundary (text : Text) (position : Nat) : Prop :=
  ∃ before after, text = before ++ after ∧ (encode before).length = position

namespace Stylesheet

open Utf8

/-! ## Slices -/

/-- A slice of a text, from one position to another. -/
structure Slice where
  start : Nat
  stop : Nat

namespace Slice

/-- The slice can be taken of the text, and cuts no character. -/
structure Fits (slice : Slice) (text : Text) : Prop where
  ordered : slice.start ≤ slice.stop
  inside : slice.stop ≤ (encode text).length
  start_isBoundary : IsBoundary text slice.start
  stop_isBoundary : IsBoundary text slice.stop

/-- What stands in the slice. -/
def octets (slice : Slice) (bytes : Bytes) : Bytes :=
  (bytes.drop slice.start).take (slice.stop - slice.start)

end Slice

def Stretch.slice (stretch : Stretch) : Slice :=
  ⟨stretch.start, stretch.start + stretch.octets.length⟩

/-- The slices that are read for a target in a text of `size` octets: its value, what stands before
it, in which its line is counted, and for a url all that stands behind `url(`, where the end is
looked for. -/
def Target.slices (size : Nat) (target : Target) : List Slice :=
  [target.value.slice, ⟨0, target.mark⟩]
    ++ if target.isUrl then [⟨target.value.start, size⟩] else []

/-- The slices that are read for a statement: those of its targets, all that stands behind them,
where the end is looked for, and the media query. -/
def Statement.slices (size : Nat) (statement : Statement) : List Slice :=
  statement.targets.flatMap (·.slices size)
    ++ [⟨statement.media.start, size⟩, statement.media.slice]

/-- The stretches that a statement keeps. -/
def Statement.stretches (statement : Statement) : List Stretch :=
  statement.targets.map (·.value) ++ [statement.media]

/-! ## Positions -/

/-- The octets are the end of the text from between two characters on. -/
def StandsIn (bytes : Bytes) (text : Text) : Prop :=
  ∃ before after, text = before ++ after ∧ bytes = encode after

namespace StandsIn

variable {text : Text} {bytes x y : Bytes}

theorem whole (text : Text) : StandsIn (encode text) text := ⟨[], text, rfl, rfl⟩

theorem isText (h : StandsIn bytes text) : IsText bytes := by
  obtain ⟨before, after, -, rfl⟩ := h
  exact ⟨after, rfl⟩

theorem of_isText (h : StandsIn (x ++ y) text) (hx : IsText x) (hy : IsText y) :
    StandsIn y text := by
  obtain ⟨before, after, rfl, hafter⟩ := h
  obtain ⟨first, rfl⟩ := hx
  obtain ⟨second, rfl⟩ := hy
  rw [← encode_append] at hafter
  refine ⟨before ++ first, second, ?_, rfl⟩
  rw [← decode_encode after, ← hafter, decode_encode, List.append_assoc]

/-- Where a text is cut at a joint, the rest stands behind whole characters. -/
theorem of_joint (h : StandsIn (x ++ y) text) (hjoint : Joint x y) : StandsIn y text := by
  obtain ⟨hx, hy⟩ := h.isText.of_joint hjoint
  exact h.of_isText hx hy

theorem tail {b : UInt8} (h : StandsIn (b :: bytes) text) (hb : b < 0x80) : StandsIn bytes text :=
  of_joint (x := [b]) h (.behind hb [] bytes)

theorem length_le (h : StandsIn bytes text) : bytes.length ≤ (encode text).length := by
  obtain ⟨before, after, rfl, rfl⟩ := h
  rw [encode_append, List.length_append]
  omega

/-- The position of such a rest is one between two characters. -/
theorem isBoundary (h : StandsIn bytes text) :
    IsBoundary text ((encode text).length - bytes.length) := by
  obtain ⟨before, after, rfl, rfl⟩ := h
  refine ⟨before, after, rfl, ?_⟩
  rw [encode_append, List.length_append]
  omega

/-- What stands between two positions of the scan is a slice of whole characters. -/
theorem stretch_fits (h : StandsIn (x ++ y) text) (hy : StandsIn y text) :
    (Stretch.slice ⟨(encode text).length - (x ++ y).length, x⟩).Fits text ∧
      x = (Stretch.slice ⟨(encode text).length - (x ++ y).length, x⟩).octets (encode text) := by
  have hlength := h.length_le
  rw [List.length_append] at hlength
  have hstop : (encode text).length - (x ++ y).length + x.length
      = (encode text).length - y.length := by
    rw [List.length_append]
    omega
  refine ⟨⟨Nat.le_add_right _ _, ?_, h.isBoundary, ?_⟩, ?_⟩
  · rw [Stretch.slice, hstop]
    exact Nat.sub_le _ _
  · rw [Stretch.slice, hstop]
    exact hy.isBoundary
  · obtain ⟨before, after, rfl, hafter⟩ := h
    rw [Slice.octets, Stretch.slice, Nat.add_sub_cancel_left, hafter, encode_append,
      List.length_append, Nat.add_sub_cancel, List.drop_left, ← hafter, List.take_left]

/-- So is what stands behind a position. -/
theorem slice_fits (h : StandsIn bytes text) :
    Slice.Fits ⟨(encode text).length - bytes.length, (encode text).length⟩ text where
  ordered := Nat.sub_le _ _
  inside := Nat.le_refl _
  start_isBoundary := h.isBoundary
  stop_isBoundary := ⟨text, [], (List.append_nil text).symm, rfl⟩

/-- And so is what stands before it. -/
theorem prefix_fits (h : StandsIn bytes text) :
    Slice.Fits ⟨0, (encode text).length - bytes.length⟩ text where
  ordered := Nat.zero_le _
  inside := Nat.sub_le _ _
  start_isBoundary := ⟨[], text, rfl, rfl⟩
  stop_isBoundary := h.isBoundary

theorem literalTail {quote : UInt8} (hquote : quote < 0x80) (h : StandsIn bytes text) :
    StandsIn (Stylesheet.literalTail quote bytes).2 text := by
  rw [← literalTail_append quote bytes] at h
  exact h.of_joint (joint_literalTail hquote bytes)

theorem dropWhile {p : UInt8 → Bool} (hstop : ∀ b, p b = false → b < 0x80)
    (h : StandsIn bytes text) : StandsIn (bytes.dropWhile p) text := by
  rw [← List.takeWhile_append_dropWhile (p := p) (l := bytes)] at h
  exact h.of_joint (joint_span hstop bytes)

theorem afterUrl (h : StandsIn bytes text) : StandsIn (Stylesheet.afterUrl bytes) text := by
  have hsplit := List.takeWhile_append_dropWhile (p := (· ≠ closeParen)) (l := bytes)
  rw [← hsplit, ← List.take_append_drop 1 (bytes.dropWhile (· ≠ closeParen)),
    ← List.append_assoc] at h
  exact h.of_joint (joint_through (by decide) bytes)

theorem urlBody (h : StandsIn bytes text) (hafter : afterWord? urlWord bytes = some x) :
    StandsIn x text := by
  have htail : ∀ {b : UInt8} {bytes : Bytes}, StandsIn (b :: bytes) text → isQuote b = false →
      b < 0x80 → StandsIn bytes text := fun h _ hb => h.tail hb
  apply carried_word htail _ h hafter
  intro w hw
  exact List.mem_append_left _ hw

/-- Every step of the scan leads from between two characters to between two characters. -/
theorem carried (text : Text) : Carried (StandsIn · text) where
  tail h _ hb := h.tail hb
  literal h hquote := (h.tail (isQuote_lt hquote)).literalTail (isQuote_lt hquote)
  url h hafter := (h.urlBody hafter).afterUrl

end StandsIn

/-- The octets may begin with the end of a character. -/
def Partway (bytes : Bytes) (text : Text) : Prop :=
  ∃ others rest, bytes = others ++ rest ∧ (∀ b ∈ others, 0x80 ≤ b) ∧ StandsIn rest text

namespace Partway

variable {text : Text} {b : UInt8} {bytes : Bytes}

theorem of_standsIn (h : StandsIn bytes text) : Partway bytes text :=
  ⟨[], bytes, rfl, fun _ hb => absurd hb List.not_mem_nil, h⟩

/-- No character ends with an ASCII octet but the octet itself. -/
theorem standsIn (h : Partway (b :: bytes) text) (hb : b < 0x80) : StandsIn (b :: bytes) text := by
  obtain ⟨others, rest, hbytes, hhigh, hrest⟩ := h
  cases others with
  | nil =>
    rw [hbytes]
    exact hrest
  | cons d others =>
    rw [(List.cons.inj hbytes).1] at hb
    exact absurd hb (UInt8.not_lt.2 (hhigh d List.mem_cons_self))

theorem tail (h : Partway (b :: bytes) text) : Partway bytes text := by
  rcases UInt8.lt_or_le b 0x80 with hlt | hge
  · exact of_standsIn ((h.standsIn hlt).tail hlt)
  obtain ⟨others, rest, hbytes, hhigh, hrest⟩ := h
  cases others with
  | cons d others =>
    exact ⟨others, rest, (List.cons.inj hbytes).2,
      fun e he => hhigh e (List.mem_cons_of_mem _ he), hrest⟩
  | nil =>
    -- the octet begins a character, and the others of that character follow
    obtain ⟨before, after, rfl, rfl⟩ := hrest
    cases after with
    | nil => cases hbytes
    | cons c after =>
      rw [List.nil_append, encode_cons] at hbytes
      cases hchar : String.utf8EncodeChar c with
      | nil => exact absurd hchar String.utf8EncodeChar_ne_nil
      | cons d others =>
        rw [hchar] at hbytes
        refine ⟨others, encode after, (List.cons.inj hbytes).2, fun e he => ?_,
          before ++ [c], after, by simp, rfl⟩
        exact le_of_mem_tail_utf8EncodeChar (c := c) (by rw [hchar]; exact he)

end Partway

/-! ## What a statement reads -/

/-- The slices of a target fit, and its value is what stands there. -/
def Target.Fits (target : Target) (text : Text) : Prop :=
  (∀ slice ∈ target.slices (encode text).length, slice.Fits text) ∧
    target.value.octets = target.value.slice.octets (encode text)

/-- The slices of a statement fit, and its stretches are what stands there. -/
def Statement.Fits (statement : Statement) (text : Text) : Prop :=
  (∀ slice ∈ statement.slices (encode text).length, slice.Fits text) ∧
    ∀ stretch ∈ statement.stretches, stretch.octets = stretch.slice.octets (encode text)

section Reads

variable {text : Text} {bytes : Bytes}

/-- A target is cut between characters, and its value is what stands between them. -/
theorem fits_of_target? {rest : Bytes} {target : Target} (h : StandsIn bytes text)
    (htarget : target? (encode text).length bytes = some (target, rest)) : target.Fits text := by
  have hprefix := h.prefix_fits
  have hrest := (StandsIn.carried text).target? h htarget
  cases bytes with
  | nil => cases htarget
  | cons b bytes =>
    simp only [target?] at htarget
    split at htarget
    next hquote =>
      obtain ⟨rfl, rfl⟩ := Prod.mk.inj (Option.some.inj htarget)
      have happend : b :: bytes = (b :: (literalTail b bytes).1) ++ (literalTail b bytes).2 := by
        rw [List.cons_append, literalTail_append]
      rw [happend] at h hprefix ⊢
      obtain ⟨hslice, hoctets⟩ := h.stretch_fits hrest
      refine ⟨fun slice hmem => ?_, hoctets⟩
      rcases List.mem_pair.1 hmem with rfl | rfl
      · exact hslice
      · exact hprefix
    next =>
      obtain ⟨after, hafter, heq⟩ := Option.map_eq_some_iff.1 htarget
      obtain ⟨rfl, rfl⟩ := Prod.mk.inj heq
      have hvalue := h.urlBody hafter
      have hclose : StandsIn (after.dropWhile (· ≠ closeParen)) text :=
        hvalue.dropWhile fun d hd => by simp at hd; rw [hd]; decide
      have happend : after = urlValue after ++ after.dropWhile (· ≠ closeParen) :=
        List.takeWhile_append_dropWhile.symm
      have hstretch := StandsIn.stretch_fits (happend ▸ hvalue) hclose
      rw [← happend] at hstretch
      refine ⟨fun slice hmem => ?_, hstretch.2⟩
      rcases List.mem_append.1 hmem with hmem | hmem
      · rcases List.mem_pair.1 hmem with rfl | rfl
        · exact hstretch.1
        · exact hprefix
      · rw [List.mem_singleton.1 hmem]
        exact hvalue.slice_fits

theorem fits_targets (h : StandsIn bytes text) :
    ∀ target ∈ (targets (encode text).length bytes).1, target.Fits text := by
  have hcarried := StandsIn.carried text
  fun_induction targets (encode text).length bytes with
  | case1 bytes hnone => exact fun target hmem => absurd hmem List.not_mem_nil
  | case2 bytes t rest ht _ _ =>
    intro target hmem
    rw [List.mem_singleton.1 hmem]
    exact fits_of_target? (hcarried.dropWhile_isGap h) ht
  | case3 bytes t rest ht _ more hmore _ ih =>
    have hgap := hcarried.dropWhile_isGap h
    have hcomma := hcarried.dropWhile_isGap (hcarried.target? hgap ht)
    rw [hmore] at hcomma
    intro target hmem
    rcases List.mem_cons.1 hmem with rfl | hmem
    · exact fits_of_target? hgap ht
    · exact ih (hcomma.tail (by decide)) target hmem
  | case4 bytes t rest ht _ b more _ _ _ =>
    intro target hmem
    rw [List.mem_singleton.1 hmem]
    exact fits_of_target? (hcarried.dropWhile_isGap h) ht

/-- The slices that a statement is read from are cut between characters, and its stretches are what
stands there. -/
theorem fits_statement (h : StandsIn bytes text) (keyword : Nat) :
    (statement (encode text).length keyword bytes).Fits text := by
  have htargets := fits_targets h
  have hrest := (StandsIn.carried text).targets (encode text).length h
  generalize hcut : targets (encode text).length bytes = cut at htargets hrest
  obtain ⟨found, rest⟩ := cut
  have hstatement : statement (encode text).length keyword bytes
      = ⟨keyword, found,
        ⟨(encode text).length - rest.length, rest.takeWhile (!isTerminator ·)⟩⟩ := by
    rw [statement, hcut]
  have hstop : StandsIn (rest.dropWhile (!isTerminator ·)) text :=
    hrest.dropWhile lt_of_isTerminator
  have hslice := hrest.slice_fits
  have happend : rest = rest.takeWhile (!isTerminator ·) ++ rest.dropWhile (!isTerminator ·) :=
    List.takeWhile_append_dropWhile.symm
  have hmedia := StandsIn.stretch_fits (happend ▸ hrest) hstop
  rw [← happend] at hmedia
  rw [hstatement]
  constructor
  · intro slice hmem
    rcases List.mem_append.1 hmem with hmem | hmem
    · obtain ⟨target, htarget, hmem⟩ := List.mem_flatMap.1 hmem
      exact (htargets target htarget).1 slice hmem
    · rcases List.mem_pair.1 hmem with rfl | rfl
      · exact hslice
      · exact hmedia.1
  · intro stretch hmem
    rcases List.mem_append.1 hmem with hmem | hmem
    · obtain ⟨target, htarget, rfl⟩ := List.mem_map.1 hmem
      exact (htargets target htarget).2
    · rw [List.mem_singleton.1 hmem]
      exact hmedia.2

/-- The scan is between two characters where it finds something to read. -/
theorem fits_statements (h : Partway bytes text) :
    ∀ statement ∈ statements (encode text).length bytes, statement.Fits text := by
  have hcarried := StandsIn.carried text
  fun_induction statements (encode text).length bytes with
  | case1 => exact fun statement hmem => absurd hmem List.not_mem_nil
  | case2 b bytes hquote ih =>
    exact ih (.of_standsIn (hcarried.literal (h.standsIn (isQuote_lt hquote)) hquote))
  | case3 b bytes _ after hafter _ ih =>
    have hat : b < 0x80 := by
      rw [eq_atSign_of_afterImport? hafter]
      decide
    have hstands := hcarried.afterImport? (h.standsIn hat) hafter
    have hrest := hcarried.targets (encode text).length hstands
    intro statement hmem
    rcases List.mem_cons.1 hmem with rfl | hmem
    · exact fits_statement hstands _
    · exact ih (.of_standsIn (hcarried.afterStatement (hrest.dropWhile lt_of_isTerminator)))
        statement hmem
  | case4 b bytes _ _ ih => exact ih h.tail

end Reads

/-- What is left of a text without its comments is a text, and what is read of it are slices of
whole characters. Every turn of the scans passes something, so they end. -/
theorem imports_reads_fit (text : Text) :
    ∃ stripped : Text, blank (encode text) = encode stripped ∧
      imports text = (statements (encode stripped).length (encode stripped)).flatMap
        (·.directives (encode stripped)) ∧
      (∀ statement ∈ statements (encode stripped).length (encode stripped),
        statement.Fits stripped) ∧
      (∀ b bytes, pieces (b :: bytes) = (next b bytes).1 :: pieces (next b bytes).2 ∧
        Advances (b :: bytes) (next b bytes).2) ∧
      (∀ size b bytes, statements size (b :: bytes)
          = (turn size b bytes).1.toList ++ statements size (turn size b bytes).2 ∧
        Advances (b :: bytes) (turn size b bytes).2) ∧
      ∀ size bytes, targets size bytes =
          (match targetTurn size bytes with
          | .leave last rest => (last.toList, rest)
          | .goOn target rest => (target :: (targets size rest).1, (targets size rest).2)) ∧
        ∀ target rest, targetTurn size bytes = .goOn target rest → Advances bytes rest := by
  obtain ⟨stripped, hstripped⟩ := isText_blank ⟨text, rfl⟩
  refine ⟨stripped, hstripped, ?_, fits_statements (.of_standsIn (.whole stripped)), ?_, ?_, ?_⟩
  · rw [imports, directives, hstripped]
  · exact fun b bytes => ⟨by rw [pieces], advances_next b bytes⟩
  · exact fun size b bytes => ⟨statements_cons size b bytes, advances_turn size b bytes⟩
  · exact fun size bytes => ⟨targets_eq size bytes, fun _ _ => advances_targetTurn⟩

end Stylesheet

end SheetImports
